import WasmBackend.Literal

/-! # Numeric conversions

The conversions between numeric types, each with the type it takes and the type it gives. Narrowing
an integer wraps to the width of the destination; a byte and a short are read back signed, a char
unsigned. Turning a float into an integer truncates toward zero, saturates at the ends of the
destination range and takes a NaN to zero. Turning a number into a float rounds to nearest. -/

namespace WasmBackend

/-- Legal conversions, named by the source kinds: `i` int, `l` long, `f` float, `d` double, `b`
byte, `c` char, `s` short. -/
inductive Conversion
  | l2i | f2i | d2i | i2b | i2c | i2s
  | i2l | f2l | d2l
  | i2f | l2f | d2f
  | i2d | l2d | f2d
  deriving DecidableEq

namespace Conversion

/-- Every conversion. -/
def all : List Conversion :=
  [l2i, f2i, d2i, i2b, i2c, i2s, i2l, f2l, d2l, i2f, l2f, d2f, i2d, l2d, f2d]

def name : Conversion → String
  | l2i => "l2i"
  | f2i => "f2i"
  | d2i => "d2i"
  | i2b => "i2b"
  | i2c => "i2c"
  | i2s => "i2s"
  | i2l => "i2l"
  | f2l => "f2l"
  | d2l => "d2l"
  | i2f => "i2f"
  | l2f => "l2f"
  | d2f => "d2f"
  | i2d => "i2d"
  | l2d => "l2d"
  | f2d => "f2d"

/-- The type of the operand. -/
def popType : Conversion → ValueType
  | i2b | i2c | i2s | i2l | i2f | i2d => .i32
  | l2i | l2f | l2d => .i64
  | f2i | f2l | f2d => .f32
  | d2i | d2l | d2f => .f64

/-- The type of the result; a narrowed integer is widened back to `i32`. -/
def pushType : Conversion → ValueType
  | l2i | f2i | d2i | i2b | i2c | i2s => .i32
  | i2l | f2l | d2l => .i64
  | i2f | l2f | d2f => .f32
  | i2d | l2d | f2d => .f64

/-- A float truncated to a signed 32-bit integer. -/
def toInt32 (v : FloatValue) : Int32 :=
  Int32.ofInt (v.toIntClamped (-0x80000000) 0x7fffffff)

/-- A float truncated to a signed 64-bit integer. -/
def toInt64 (v : FloatValue) : Int64 :=
  Int64.ofInt (v.toIntClamped (-0x8000000000000000) 0x7fffffffffffffff)

/-- The conversion of a constant; nothing if the constant is not of the operand type. -/
def fold? : Conversion → Literal → Option Literal
  | l2i, .i64 v => some (.i32 v.toInt32)
  | f2i, .f32 v => some (.i32 (toInt32 v.value))
  | d2i, .f64 v => some (.i32 (toInt32 v.value))
  | i2b, .i32 v => some (.i32 v.toInt8.toInt32)
  | i2c, .i32 v => some (.i32 (Int32.ofNat v.toUInt32.toUInt16.toNat))
  | i2s, .i32 v => some (.i32 v.toInt16.toInt32)
  | i2l, .i32 v => some (.i64 v.toInt64)
  | f2l, .f32 v => some (.i64 (toInt64 v.value))
  | d2l, .f64 v => some (.i64 (toInt64 v.value))
  | i2f, .i32 v => some (.f32 (F32.ofInt v.toInt))
  | l2f, .i64 v => some (.f32 (F32.ofInt v.toInt))
  | d2f, .f64 v => some (.f32 (F32.round v.value))
  | i2d, .i32 v => some (.f64 (F64.ofInt v.toInt))
  | l2d, .i64 v => some (.f64 (F64.ofInt v.toInt))
  | f2d, .f32 v => some (.f64 (F64.round v.value))
  | _, _ => none

end Conversion

end WasmBackend
