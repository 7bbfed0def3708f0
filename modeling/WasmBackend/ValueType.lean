/-! # Value types of the target

A *value type* is a kind of value that source code talks about: the four numeric types of the
operand stack, four packed types that exist only in array storage, and four built-in reference
types. A packed value is *widened* to `i32` as soon as it reaches the operand stack.

A *target type* is what a declaration of the target module can hold: a value type or a nullable
reference to an entry of the type section. -/

namespace WasmBackend

/-- Primitive and built-in reference types. -/
inductive ValueType
  | i32
  | i64
  | f32
  | f64
  /-- Signed byte, array storage only. -/
  | i8
  /-- Signed 16-bit integer, array storage only. -/
  | i16
  /-- Unsigned 16-bit integer, array storage only. -/
  | u16
  /-- Truth value, stored as an unsigned byte. -/
  | bool
  | funcRef
  /-- Reference provided by the host. -/
  | externRef
  | anyRef
  /-- Reference that supports equality. -/
  | eqRef
  deriving DecidableEq

namespace ValueType

/-- Every value type, in declaration order. -/
def all : List ValueType :=
  [i32, i64, f32, f64, i8, i16, u16, bool, funcRef, externRef, anyRef, eqRef]

/-- Name in the text format. -/
def name : ValueType → String
  | i32 => "i32"
  | i64 => "i64"
  | f32 => "f32"
  | f64 => "f64"
  | i8 => "i8"
  | i16 => "i16"
  | u16 => "u16"
  | bool => "bool"
  | funcRef => "funcref"
  | externRef => "externref"
  | anyRef => "anyref"
  | eqRef => "eqref"

/-- The value type with a name. -/
def ofName? (name : String) : Option ValueType := all.find? fun ty => ty.name = name

/-- Values of the type are references. -/
def isRef : ValueType → Bool
  | funcRef | externRef | anyRef | eqRef => true
  | _ => false

/-- The type is narrower than 32 bits. -/
def isSubWord : ValueType → Bool
  | i8 | i16 | u16 | bool => true
  | _ => false

/-- The type is one of the four numeric stack types. -/
def isNumeric : ValueType → Bool
  | i32 | i64 | f32 | f64 => true
  | _ => false

/-- Storage width in bytes; a reference has none. -/
def width : ValueType → Option Nat
  | i8 | bool => some 1
  | i16 | u16 => some 2
  | i32 | f32 => some 4
  | i64 | f64 => some 8
  | funcRef | externRef | anyRef | eqRef => none

/-- The type a value has on the operand stack. -/
def widened (ty : ValueType) : ValueType :=
  if ty.isSubWord then i32 else ty

/-- Type code in the binary format. A packed type has the code of its storage, so `u16` and `bool`
share the codes of `i16` and `i8`. -/
def code : ValueType → UInt8
  | i32 => 0x7F
  | i64 => 0x7E
  | f32 => 0x7D
  | f64 => 0x7C
  | i8 | bool => 0x78
  | i16 | u16 => 0x77
  | funcRef => 0x70
  | externRef => 0x6F
  | anyRef => 0x6E
  | eqRef => 0x6D

theorem mem_all (ty : ValueType) : ty ∈ all := by
  cases ty <;> decide

theorem ofName?_name (ty : ValueType) : ofName? ty.name = some ty := by
  cases ty <;> decide

@[simp]
theorem widened_widened (ty : ValueType) : ty.widened.widened = ty.widened := by
  cases ty <;> rfl

end ValueType

/-- The number with the given decimal digits. -/
def ofDecimal? (digits : List Char) : Option Nat :=
  if digits.isEmpty || !digits.all Char.isDigit then none
  else some (digits.foldl (fun n c => 10 * n + (c.toNat - '0'.toNat)) 0)

/-- Types of locals, parameters, results and array storage in the target module. -/
inductive WasmType
  | value (ty : ValueType)
  /-- Nullable reference to the type with this index. -/
  | ref (index : Nat)
  deriving DecidableEq

namespace WasmType

/-- Name in the text format. -/
def name : WasmType → String
  | value ty => ty.name
  | ref index => s!"(ref null {index})"

/-- The target type with a name. -/
def ofName? (name : String) : Option WasmType :=
  match name.toList with
  | '(' :: 'r' :: 'e' :: 'f' :: ' ' :: 'n' :: 'u' :: 'l' :: 'l' :: ' ' :: rest =>
    if rest.getLast? = some ')' then (ofDecimal? rest.dropLast).map .ref else none
  | _ => (ValueType.ofName? name).map .value

end WasmType

end WasmBackend
