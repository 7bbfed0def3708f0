import WasmBackend.Float.Decimal
import WasmBackend.ValueType

/-! # Numeric literals

A *literal* is a constant that the target can encode. A *boxed number* is a constant as the source
language holds it; only the kinds that have a target type of their own become literals. -/

namespace WasmBackend

/-- A constant of one of the four numeric stack types. -/
inductive Literal
  | i32 (v : Int32)
  | i64 (v : Int64)
  | f32 (v : F32)
  | f64 (v : F64)
  deriving DecidableEq

namespace Literal

/-- The type of the constant. -/
def type : Literal → ValueType
  | i32 _ => .i32
  | i64 _ => .i64
  | f32 _ => .f32
  | f64 _ => .f64

/-- Decimal text of the constant. -/
def text : Literal → String
  | i32 v => toString v.toInt
  | i64 v => toString v.toInt
  | f32 v => v.text
  | f64 v => v.text

end Literal

/-- A number as the source language boxes it. -/
inductive BoxedNumber
  | int (v : Int32)
  | long (v : Int64)
  | float (v : F32)
  | double (v : F64)
  | byte (v : Int8)
  | short (v : Int16)
  | char (v : UInt16)
  deriving DecidableEq

namespace BoxedNumber

/-- Source name of the kind. -/
def typeName : BoxedNumber → String
  | int _ => "java.lang.Integer"
  | long _ => "java.lang.Long"
  | float _ => "java.lang.Float"
  | double _ => "java.lang.Double"
  | byte _ => "java.lang.Byte"
  | short _ => "java.lang.Short"
  | char _ => "java.lang.Character"

/-- The literal of the same type and value, if there is one. -/
def toLiteral? : BoxedNumber → Option Literal
  | int v => some (.i32 v)
  | long v => some (.i64 v)
  | float v => some (.f32 v)
  | double v => some (.f64 v)
  | byte _ | short _ | char _ => none

end BoxedNumber

end WasmBackend
