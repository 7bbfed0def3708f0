import WasmBackend.Binary.Encoding
import WasmBackend.Float.Format

/-! # Target code

A *target instruction* is an opcode with its immediates. A *code operation* is a target instruction
or an access to a scratch local: a local that generated code needs for itself, named by a number and
a type until the function that holds it is written. -/

namespace WasmBackend

/-- A target instruction with its immediates. -/
inductive TargetOp
  /-- An opcode without immediates. -/
  | plain (op : Opcode)
  | i32Const (v : Int32)
  | i64Const (v : Int64)
  | f32Const (v : F32)
  | f64Const (v : F64)
  /-- An opcode with one index: a local, label, type or function. -/
  | indexed (op : Opcode) (index : Nat)
  | structGet (typeIndex field : Nat)
  /-- An opcode that opens a block without parameters and results. -/
  | block (op : Opcode)
  deriving DecidableEq

namespace TargetOp

/-- Bytes of the instruction. -/
def encode : TargetOp → List UInt8
  | plain op => op.encode
  | i32Const v => Opcode.i32Const.encode ++ Leb128.encodeInt v.toInt
  | i64Const v => Opcode.i64Const.encode ++ Leb128.encodeInt v.toInt
  | f32Const v => Opcode.f32Const.encode ++ encodeWord32 v.bits
  | f64Const v => Opcode.f64Const.encode ++ encodeWord64 v.bits
  | indexed op index => op.encode ++ Leb128.encodeNat index
  | structGet typeIndex field =>
    Opcode.structGet.encode ++ Leb128.encodeNat typeIndex ++ Leb128.encodeNat field
  | block op => op.encode ++ [emptyBlockType]

end TargetOp

/-- A target instruction or an access to the `n`-th scratch local of a type. -/
inductive CodeOp
  | target (op : TargetOp)
  | scratchSet (n : Nat) (ty : WasmType)
  | scratchGet (n : Nat) (ty : WasmType)
  deriving DecidableEq

instance : Coe TargetOp CodeOp := ⟨.target⟩

end WasmBackend
