import WasmBackend.Module.Draft

/-! # Buffered code

The code of a function is encoded as it is written, although two things are not known yet: the
scratch locals that its body has to declare in front of the code, and the indices of its callees. So
a call is written without its index, at a recorded offset. When the function is complete, the
declarations of its locals are put in front of the code, and the recorded offsets move with it. When
the indices are known, they are spliced in at these offsets. -/

namespace WasmBackend

/-! ### Scratch locals -/

/-- The scratch locals that a function has used so far, numbered from `base` on. -/
structure ScratchTable where
  base : Nat := 0
  keys : List (Nat × WasmType) := []
  deriving DecidableEq

namespace ScratchTable

/-- The local of a scratch local, which is the next free one when it is used first. -/
def index (t : ScratchTable) (key : Nat × WasmType) : Nat × ScratchTable :=
  match t.keys.idxOf? key with
  | some place => (t.base + place, t)
  | none => (t.base + t.keys.length, { t with keys := t.keys ++ [key] })

/-- The target instruction of a code operation. -/
def resolve (t : ScratchTable) : CodeOp → TargetOp × ScratchTable
  | .target instr => (instr, t)
  | .scratchSet n ty =>
    let (index, t) := t.index (n, ty)
    (.indexed .localSet index, t)
  | .scratchGet n ty =>
    let (index, t) := t.index (n, ty)
    (.indexed .localGet index, t)

end ScratchTable

/-! ### Code of a function -/

/-- The code of a function, as far as it has been written. -/
structure CodeBuffer where
  bytes : List UInt8 := []
  /-- Offsets in the code that take the index of a called function. -/
  calls : List (Nat × Nat) := []
  deriving DecidableEq

namespace CodeBuffer

/-- Writes a target instruction. -/
def writeOp (b : CodeBuffer) (instr : TargetOp) : CodeBuffer :=
  { b with bytes := b.bytes ++ instr.encode }

/-- Writes a call without its index. -/
def writeCall (b : CodeBuffer) (callee : Nat) : CodeBuffer :=
  let bytes := b.bytes ++ Opcode.call.encode
  { bytes, calls := b.calls ++ [(bytes.length, callee)] }

/-- Writes an emission, and keeps the table of scratch locals. -/
def write : CodeBuffer × ScratchTable → Emission → CodeBuffer × ScratchTable
  | (b, scratch), .op op =>
    let (instr, scratch) := scratch.resolve op
    (b.writeOp instr, scratch)
  | (b, scratch), .call _ callee _ => (b.writeCall callee, scratch)

end CodeBuffer

/-! ### Declarations of locals -/

/-- Groups of equal neighbours, each with its length. -/
def runLengths : List WasmType → List (Nat × WasmType)
  | [] => []
  | ty :: rest =>
    match runLengths rest with
    | (count, first) :: groups =>
      if ty = first then (count + 1, first) :: groups else (1, ty) :: (count, first) :: groups
    | [] => [(1, ty)]

/-- Bytes of the declarations of locals. -/
def encodeLocals (types : List WasmType) : List UInt8 :=
  let groups := runLengths types
  Leb128.encodeNat groups.length ++
    groups.flatMap fun (count, ty) => Leb128.encodeNat count ++ ty.encode

/-! ### Complete functions -/

/-- A finished function. -/
structure EncodedFunction where
  id : Nat
  /-- Index in the module. -/
  index : Nat
  name : String
  params : List WasmType
  result : Option WasmType
  /-- Size of the body and the body. -/
  bytes : List UInt8
  deriving DecidableEq

/-- A complete function whose calls have no indices yet. -/
structure BufferedFunction where
  id : Nat
  name : String
  params : List WasmType
  result : Option WasmType
  /-- Declarations of locals, code and `end`. -/
  body : List UInt8
  /-- Offsets in the body that take the index of a called function. -/
  calls : List (Nat × Nat)
  deriving DecidableEq

/-- The body with the index of every callee put in at its offset, from the offset `copied` on. -/
def splice (indices : ModuleIndices) (body : List UInt8) :
    (copied : Nat) → List (Nat × Nat) → Except CompileError (List UInt8)
  | copied, [] => .ok (body.drop copied)
  | copied, (offset, callee) :: calls => do
    let index ← indices.get callee
    let rest ← splice indices body offset calls
    return (body.take offset).drop copied ++ Leb128.encodeNat index ++ rest

/-- The finished function. -/
def BufferedFunction.resolve (b : BufferedFunction) (indices : ModuleIndices) :
    Except CompileError EncodedFunction := do
  let body ← splice indices b.body 0 b.calls
  let index ← indices.get b.id
  return { id := b.id, index, name := b.name, params := b.params, result := b.result
           bytes := Leb128.encodeNat body.length ++ body }

/-- Finishes functions until one fails; gives those before it. -/
def BufferedFunction.resolveAll (indices : ModuleIndices) :
    List BufferedFunction → List EncodedFunction × Except CompileError Unit
  | [] => ([], .ok ())
  | b :: rest =>
    match b.resolve indices with
    | .error e => ([], .error e)
    | .ok finished =>
      let (others, result) := resolveAll indices rest
      (finished :: others, result)

/-! ### From drafts to complete functions -/

/-- A function whose code is being written. -/
structure OpenFunction where
  id : Nat
  name : String
  params : List WasmType
  result : Option WasmType
  locals : List WasmType
  deriving DecidableEq

namespace OpenFunction

/-- The table for the scratch locals of the function. -/
def scratch (f : OpenFunction) : ScratchTable := { base := f.params.length + f.locals.length }

/-- The complete function with the given code. The offsets of its calls move behind the declarations
of its locals. -/
def close (f : OpenFunction) (code : CodeBuffer) (scratch : ScratchTable) : BufferedFunction :=
  let header := encodeLocals (f.locals ++ scratch.keys.map Prod.snd)
  { id := f.id, name := f.name, params := f.params, result := f.result
    body := header ++ code.bytes ++ Opcode.endBlock.encode
    calls := code.calls.map fun (offset, callee) => (header.length + offset, callee) }

end OpenFunction

namespace FunctionDraft

/-- The function without its code. -/
def opened (f : FunctionDraft) : OpenFunction :=
  { id := f.id, name := f.name, params := f.params, result := f.result, locals := f.locals }

/-- The encoded code of the draft, and its scratch locals. -/
def written (f : FunctionDraft) : CodeBuffer × ScratchTable :=
  f.body.foldl CodeBuffer.write ({}, f.opened.scratch)

/-- The complete function with the code of the draft. -/
def buffer (f : FunctionDraft) : BufferedFunction := f.opened.close f.written.1 f.written.2

end FunctionDraft

end WasmBackend
