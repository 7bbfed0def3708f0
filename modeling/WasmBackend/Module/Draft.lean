import WasmBackend.Emission

/-! # Functions being written

A draft is what is known of a function while it is written: its signature, its declared locals and
its emissions so far. When it is complete, its scratch locals are placed after parameters and
declared locals, in the order of first use, so that only target instructions and calls are left. -/

namespace WasmBackend

/-- A function and the code written for it. -/
structure FunctionDraft where
  id : Nat
  name : String
  params : List WasmType
  result : Option WasmType
  /-- Declared locals that are not parameters. -/
  locals : List WasmType
  body : List Emission := []
  deriving DecidableEq

/-- An item of code in which scratch locals have their place. -/
inductive BodyOp
  | op (op : TargetOp)
  | call (name : FunctionName) (callee : Nat) (viewedAs : Option WasmType)
  deriving DecidableEq

/-- The elements of a list without repetitions, in the order of first occurrence. -/
def firstUses {α : Type} [DecidableEq α] : List α → List α
  | [] => []
  | a :: rest => a :: (firstUses rest).filter (· ≠ a)

namespace Emission

/-- The scratch local that an emission uses. -/
def scratch? : Emission → Option (Nat × WasmType)
  | .op (.scratchSet n ty) | .op (.scratchGet n ty) => some (n, ty)
  | _ => none

/-- The emission once `index` gives scratch locals their place. -/
def place (index : Nat × WasmType → Nat) : Emission → BodyOp
  | .op (.target instr) => .op instr
  | .op (.scratchSet n ty) => .op (.indexed .localSet (index (n, ty)))
  | .op (.scratchGet n ty) => .op (.indexed .localGet (index (n, ty)))
  | .call name callee viewedAs => .call name callee viewedAs

end Emission

namespace FunctionDraft

/-- The scratch locals of the function, in the order of first use. -/
def scratch (f : FunctionDraft) : List (Nat × WasmType) :=
  firstUses (f.body.filterMap Emission.scratch?)

/-- Index of the first scratch local. -/
def scratchBase (f : FunctionDraft) : Nat := f.params.length + f.locals.length

/-- The code of the function with its scratch locals in place. -/
def code (f : FunctionDraft) : List BodyOp :=
  let scratch := f.scratch
  f.body.map (Emission.place fun key => f.scratchBase + scratch.idxOf key)

/-- Types of all locals that are not parameters: declared ones, then scratch locals. -/
def declared (f : FunctionDraft) : List WasmType := f.locals ++ f.scratch.map Prod.snd

/-- The draft with more code. -/
def extend (f : FunctionDraft) (code : List Emission) : FunctionDraft :=
  { f with body := f.body ++ code }

end FunctionDraft

end WasmBackend
