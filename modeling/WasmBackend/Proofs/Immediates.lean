import WasmBackend.Code

/-! # Immediates of instructions

An opcode prescribes the shape of what follows it. An instruction whose immediates have that shape
can be told from the bytes that follow it; if its indices are words too, it can be read back
(`TargetOp.WellShaped`). -/

namespace WasmBackend

/-- The shape of what follows an opcode. -/
inductive Immediates
  | nothing
  | int32
  | int64
  | float32
  | float64
  | index
  /-- A type and a field of it. -/
  | field
  | blockType
  deriving DecidableEq

/-- The immediates that an opcode prescribes. -/
@[simp]
def Opcode.immediates : Opcode → Immediates
  | .i32Const => .int32
  | .i64Const => .int64
  | .f32Const => .float32
  | .f64Const => .float64
  | .br | .brIf | .call | .localGet | .localSet | .localTee | .structNew | .arrayNewDefault
  | .arrayGet | .arrayGetS | .arrayGetU | .arraySet => .index
  | .structGet => .field
  | .block | .loop => .blockType
  | _ => .nothing

namespace TargetOp

/-- The instruction has the immediates that its opcode prescribes. -/
@[simp]
def hasShape : TargetOp → Bool
  | .plain op => op.immediates = .nothing
  | .indexed op _ => op.immediates = .index
  | .block op => op.immediates = .blockType
  | .i32Const _ | .i64Const _ | .f32Const _ | .f64Const _ | .structGet _ _ => true

/-- The indices among the immediates. -/
@[simp]
def indices : TargetOp → List Nat
  | .indexed _ index => [index]
  | .structGet typeIndex field => [typeIndex, field]
  | _ => []

/-- The instruction has the immediates that its opcode prescribes, and its indices are words. -/
def WellShaped (instr : TargetOp) : Prop :=
  instr.hasShape = true ∧ ∀ index ∈ instr.indices, index < 0x100000000

/-- The instruction calls a function. -/
@[simp]
def isCall : TargetOp → Bool
  | .indexed .call _ => true
  | _ => false

end TargetOp

/-- The operation has the immediates of its opcode and calls nothing. -/
@[simp]
def CodeOp.isCallFree : CodeOp → Bool
  | .target instr => instr.hasShape && !instr.isCall
  | .scratchSet _ _ | .scratchGet _ _ => true

end WasmBackend
