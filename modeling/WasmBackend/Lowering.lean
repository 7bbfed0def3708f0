import WasmBackend.Code
import WasmBackend.TypeRegistry

/-! # Code of operators

The target code of conversions, numeric operators, control operators and array accesses. Both the
text and the binary form of a module are written from these sequences, so they cannot disagree about
what an operator means. -/

namespace WasmBackend

/-- Code of a conversion. -/
def Conversion.code : Conversion → List TargetOp
  | l2i => [.plain .i32WrapI64]
  | f2i => [.plain .i32TruncSatF32S]
  | d2i => [.plain .i32TruncSatF64S]
  | i2b => [.plain .i32Extend8S]
  | i2c => [.i32Const 0xFFFF, .plain .i32And]
  | i2s => [.plain .i32Extend16S]
  | i2l => [.plain .i64ExtendI32S]
  | f2l => [.plain .i64TruncSatF32S]
  | d2l => [.plain .i64TruncSatF64S]
  | i2f => [.plain .f32ConvertI32S]
  | l2f => [.plain .f32ConvertI64S]
  | d2f => [.plain .f32DemoteF64]
  | i2d => [.plain .f64ConvertI32S]
  | l2d => [.plain .f64ConvertI64S]
  | f2d => [.plain .f64PromoteF32]

namespace NumericOp

/-- Code of an operator on 32-bit integers. Negation multiplies by `-1`. -/
def code32 : NumericOp → List TargetOp
  | add => [.plain .i32Add]
  | sub => [.plain .i32Sub]
  | mul => [.plain .i32Mul]
  | div => [.plain .i32DivS]
  | rem => [.plain .i32RemS]
  | and => [.plain .i32And]
  | or => [.plain .i32Or]
  | xor => [.plain .i32Xor]
  | shl => [.plain .i32Shl]
  | shrS => [.plain .i32ShrS]
  | shrU => [.plain .i32ShrU]
  | eq => [.plain .i32Eq]
  | ne => [.plain .i32Ne]
  | lt => [.plain .i32LtS]
  | le => [.plain .i32LeS]
  | gt => [.plain .i32GtS]
  | ge => [.plain .i32GeS]
  | eqz => [.plain .i32Eqz]
  | neg => [.i32Const (-1), .plain .i32Mul]

/-- Code of an operator on 64-bit integers. Negation multiplies by `-1`. -/
def code64 : NumericOp → List TargetOp
  | add => [.plain .i64Add]
  | sub => [.plain .i64Sub]
  | mul => [.plain .i64Mul]
  | div => [.plain .i64DivS]
  | rem => [.plain .i64RemS]
  | and => [.plain .i64And]
  | or => [.plain .i64Or]
  | xor => [.plain .i64Xor]
  | shl => [.plain .i64Shl]
  | shrS => [.plain .i64ShrS]
  | shrU => [.plain .i64ShrU]
  | eq => [.plain .i64Eq]
  | ne => [.plain .i64Ne]
  | lt => [.plain .i64LtS]
  | le => [.plain .i64LeS]
  | gt => [.plain .i64GtS]
  | ge => [.plain .i64GeS]
  | eqz => [.plain .i64Eqz]
  | neg => [.i64Const (-1), .plain .i64Mul]

/-- Opcode of an operator on 32-bit floats, which have no remainder and no bits. -/
def float32Opcode? : NumericOp → Option Opcode
  | add => some .f32Add
  | sub => some .f32Sub
  | mul => some .f32Mul
  | div => some .f32Div
  | neg => some .f32Neg
  | eq => some .f32Eq
  | ne => some .f32Ne
  | lt => some .f32Lt
  | le => some .f32Le
  | gt => some .f32Gt
  | ge => some .f32Ge
  | _ => none

/-- Opcode of an operator on 64-bit floats, which have no remainder and no bits. -/
def float64Opcode? : NumericOp → Option Opcode
  | add => some .f64Add
  | sub => some .f64Sub
  | mul => some .f64Mul
  | div => some .f64Div
  | neg => some .f64Neg
  | eq => some .f64Eq
  | ne => some .f64Ne
  | lt => some .f64Lt
  | le => some .f64Le
  | gt => some .f64Gt
  | ge => some .f64Ge
  | _ => none

/-- Code of an operator on operands of a type, if the type admits it. -/
def code? (op : NumericOp) : ValueType → Option (List TargetOp)
  | .i32 => some op.code32
  | .i64 => some op.code64
  | .f32 => op.float32Opcode?.map fun o => [.plain o]
  | .f64 => op.float64Opcode?.map fun o => [.plain o]
  | _ => none

/-- Code of an operator on operands of a type. -/
def code (op : NumericOp) (ty : ValueType) : Except CompileError (List TargetOp) :=
  match op.code? ty with
  | some ops => .ok ops
  | none => .error (.ofFault (.noNumericCode op ty))

end NumericOp

/-- Code of a control operator; `depth` is the label of a branch. -/
def ControlOp.code (op : ControlOp) (depth : Nat) : TargetOp :=
  match op with
  | block | loop => .block op.opcode
  | br | brIf => .indexed op.opcode depth
  | ret | drop | unreachable | endBlock => .plain op.opcode

/-- Code of an access to a local. -/
def VariableOp.code (op : VariableOp) (index : Nat) : TargetOp :=
  .indexed op.opcode index

namespace Literal

/-- Code that pushes the constant. -/
def code : Literal → TargetOp
  | i32 v => .i32Const v
  | i64 v => .i64Const v
  | f32 v => .f32Const v
  | f64 v => .f64Const v

/-- Code that pushes the constant as a value of a given type. -/
def codeAs (v : Literal) (ty : ValueType) : Except CompileError TargetOp :=
  if v.type = ty then .ok v.code else .error (.ofFault (.literalType v ty))

end Literal

/-! ### Arrays -/

namespace ArrayClass

/-- Field of the wrapper struct that holds the buffer. -/
def bufferField : Nat := 2

/-- Code that replaces a reference to an array by its buffer. -/
def loadBuffer (a : ArrayClass) : TargetOp := .structGet a.typeIndex bufferField

end ArrayClass

namespace ArrayOp

/-- Opcode that reads an element from storage. Packed storage needs an extension, and a plain read
takes the one that the element type asks for. -/
def readOpcode (op : ArrayOp) : WasmType → Opcode
  | .value .i8 | .value .i16 => if op = getUnsigned then .arrayGetU else .arrayGetS
  | .value .u16 | .value .bool => if op = getSigned then .arrayGetS else .arrayGetU
  | _ => .arrayGet

/-- Code of an operation on a native array. The reference on the stack points to the wrapper, so the
operands above it are parked in scratch locals while the buffer is loaded. Allocation is done by a
helper function and has no inline form. -/
def inlineCode (op : ArrayOp) (a : ArrayClass) : Except CompileError (List CodeOp) := do
  let native ← a.native
  let index : WasmType := .value .i32
  match op with
  | new | newWithDescriptor => .error (.ofFault (.noInlineForm op))
  | get | getSigned | getUnsigned =>
    return [.scratchSet 0 index, a.loadBuffer, .scratchGet 0 index,
      TargetOp.indexed (op.readOpcode native.storage) native.typeIndex]
  | set =>
    return [.scratchSet 1 a.elementLocal, .scratchSet 0 index, a.loadBuffer,
      .scratchGet 0 index, .scratchGet 1 a.elementLocal,
      TargetOp.indexed .arraySet native.typeIndex]
  | len => return [a.loadBuffer, TargetOp.plain .arrayLen]

/-- Code after a read by a host helper. A host buffer extends an element as a plain native read
does; only the opposite extension needs code. -/
def hostExtension : ArrayOp → OperandType → List TargetOp
  | getUnsigned, .value .i8 => [.i32Const 0xFF, .plain .i32And]
  | getUnsigned, .value .i16 => [.i32Const 0xFFFF, .plain .i32And]
  | getSigned, .value .bool => [.plain .i32Extend8S]
  | getSigned, .value .u16 => [.plain .i32Extend16S]
  | _, _ => []

end ArrayOp

end WasmBackend
