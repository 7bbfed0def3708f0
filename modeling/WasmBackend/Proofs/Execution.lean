import Mathlib.Logic.Relation
import WasmBackend.Proofs.VerifierSteps

/-! # Executions of structured code

A run of a function body on the types of its operands. Code is executed one instruction at a time:
an instruction takes the operands its contract pops and leaves the one it pushes. Every `BLOCK` and
`LOOP` that has been entered and not left has a *label*, which records how many operands there were
when it was entered and where a branch to it goes on: after its `END` for a block, at its first
instruction for a loop. A branch cuts the stack back to the recorded height.

`BR_IF` may or may not branch, so a configuration has a list of successors (`Config.next`). A
`RETURN` ends the run and `UNREACHABLE` stops it; neither has a successor. `Reaches` is a run of any
length, through any number of iterations of a loop. `Safe` is what a stack discipline has to ensure
of every configuration that a run meets. -/

namespace WasmBackend.Execution

open Verifier (Fits)

/-! ### Nesting of blocks -/

/-- What an instruction does to the blocks that are open. -/
inductive Nesting
  | opens
  | closes
  | keeps
  deriving DecidableEq

/-- What an instruction does to the blocks that are open. -/
def nesting (i : Instruction) : Nesting :=
  match i.controlOp? with
  | some .block | some .loop => .opens
  | some .endBlock => .closes
  | _ => .keeps

/-- The code after the `END` of an open block, where `depth` blocks inside it are open as well. -/
def afterEnd : (depth : Nat) → List Instruction → List Instruction
  | _, [] => []
  | depth, i :: rest =>
    match nesting i, depth with
    | .opens, depth => afterEnd (depth + 1) rest
    | .closes, 0 => rest
    | .closes, depth + 1 => afterEnd depth rest
    | .keeps, depth => afterEnd depth rest

/-- Number of open blocks after an instruction. -/
def openAfter (opened : Nat) (i : Instruction) : Nat :=
  match nesting i with
  | .opens => opened + 1
  | .closes => opened - 1
  | .keeps => opened

/-- The label that an instruction may branch to. -/
def branchDepth? (i : Instruction) : Option Nat :=
  match i.kind with
  | .control .br _ depth | .control .brIf _ depth => some depth
  | _ => none

/-- Every branch in the code names a block that is open where the branch stands; `opened` blocks are
open at the start. -/
def branchesInScope : (opened : Nat) → List Instruction → Bool
  | _, [] => true
  | opened, i :: rest =>
    (branchDepth? i).all (· < opened) && branchesInScope (openAfter opened i) rest

/-! ### Configurations -/

/-- A block or loop that has been entered. -/
structure Label where
  isLoop : Bool
  /-- Number of operands when it was entered. -/
  height : Nat
  /-- The code at which a branch goes on. -/
  target : List Instruction
  deriving DecidableEq

/-- A point of a run. -/
structure Config where
  /-- What is left to execute. -/
  code : List Instruction
  /-- Types of the operands, top first. -/
  stack : List OperandType
  /-- Labels of the open blocks, innermost first. -/
  labels : List Label
  deriving DecidableEq

namespace Config

/-- The start of a function. -/
def start (body : List Instruction) : Config := { code := body, stack := [], labels := [] }

/-- Number of operands below the innermost open block. -/
def base (c : Config) : Nat :=
  match c.labels with
  | [] => 0
  | l :: _ => l.height

/-- The configuration after a branch to a label. -/
def branch (c : Config) (depth : Nat) : Option Config :=
  match c.labels.drop depth with
  | [] => none
  | l :: outer =>
    some { code := l.target
           stack := c.stack.drop (c.stack.length - l.height)
           labels := if l.isLoop then l :: outer else outer }

/-- Where a control operator takes a run, from the configuration in which its operands are popped
and the code goes on behind it. -/
def control (c : Config) (op : ControlOp) (depth : Nat) : List Config :=
  match op with
  | .block => [{ c with labels := ⟨false, c.stack.length, afterEnd 0 c.code⟩ :: c.labels }]
  | .loop => [{ c with labels := ⟨true, c.stack.length, c.code⟩ :: c.labels }]
  | .endBlock => [{ c with labels := c.labels.drop 1 }]
  | .br => (c.branch depth).toList
  | .brIf => c :: (c.branch depth).toList
  | .drop => [c]
  | .ret | .unreachable => []

/-- The stack after an instruction that pops and pushes these types. -/
def afterOperands (stack pops : List OperandType) (pushed : Option OperandType) :
    List OperandType :=
  (pushed.map OperandType.widened).toList ++ stack.drop pops.length

/-- Where an instruction takes a run, once its operands are popped and pushed. -/
def proceed (c : Config) (i : Instruction) : List Config :=
  match i.kind with
  | .control op _ depth => c.control op depth
  | _ => [c]

/-- The configurations that can follow. -/
def next (slots : SlotTable) (c : Config) : List Config :=
  match c.code with
  | [] => []
  | i :: rest =>
    match i.popTypes slots, i.pushType slots with
    | .ok pops, .ok pushed =>
      proceed { c with code := rest, stack := afterOperands c.stack pops pushed } i
    | _, _ => []

end Config

/-- A run leads from one configuration to the other. -/
def Reaches (slots : SlotTable) : Config → Config → Prop :=
  Relation.ReflTransGen fun c d => d ∈ c.next slots

/-- The configuration that a run comes to when it takes these successors, by their place among the
successors of each configuration. -/
def Config.follow (slots : SlotTable) : (choices : List Nat) → Config → Option Config
  | [], c => some c
  | k :: choices, c => (c.next slots)[k]?.bind (follow slots choices)

theorem reaches_of_follow {slots : SlotTable} : ∀ {choices : List Nat} {c d : Config},
    c.follow slots choices = some d → Reaches slots c d
  | [], c, d, h => by
    cases h
    exact .refl
  | k :: choices, c, d, h => by
    obtain ⟨mid, hmid, hrest⟩ := Option.bind_eq_some_iff.mp h
    exact .head (List.mem_of_getElem? hmid) (reaches_of_follow hrest)

/-! ### Safety -/

/-- What holds of a configuration in which the stack discipline is kept. -/
structure Safe (ctx : Verifier.Context) (c : Config) : Prop where
  /-- The next instruction finds its operands above the innermost open block. -/
  operands : ∀ i rest, c.code = i :: rest → ∃ pops, i.popTypes ctx.slots = .ok pops ∧
    c.base + pops.length ≤ c.stack.length ∧ Fits pops.reverse (c.stack.take pops.length)
  /-- A `RETURN` takes the result of the function. -/
  returned : ∀ i rest, c.code = i :: rest → i.controlOp? = some .ret →
    ∃ pops, i.popTypes ctx.slots = .ok pops ∧
      Fits ctx.result.toList (c.stack.take pops.length)
  /-- The result of the function is left at its end, and nothing else. -/
  result : c.code = [] → c.labels = [] ∧ Fits ctx.result.toList c.stack
  /-- A run stops only at the end, at a `RETURN` or at an `UNREACHABLE`. -/
  progress : c.next ctx.slots = [] → c.code = [] ∨ ∃ i rest, c.code = i :: rest ∧
    (i.controlOp? = some .ret ∨ i.controlOp? = some .unreachable)

end WasmBackend.Execution
