import WasmBackend.ValueType

/-! # Types on the operand stack

An *operand type* is what instructions say about the values they pop and push: a value type, or a
reference to a class that the type registry numbers. -/

namespace WasmBackend

/-- A value type or a reference to a registered class. -/
inductive OperandType
  | value (ty : ValueType)
  /-- Reference to the struct class with this number. -/
  | struct (id : Nat)
  /-- Reference to the array class with this number. -/
  | array (id : Nat)
  deriving DecidableEq

namespace OperandType

/-- The operand type of 32-bit integers. -/
abbrev i32 : OperandType := .value .i32

/-- Readable name. -/
def name : OperandType → String
  | value ty => ty.name
  | struct id => s!"struct{id}"
  | array id => s!"array{id}"

/-- The operand type with a name. -/
def ofName? (name : String) : Option OperandType :=
  match name.toList with
  | 's' :: 't' :: 'r' :: 'u' :: 'c' :: 't' :: digits => (ofDecimal? digits).map .struct
  | 'a' :: 'r' :: 'r' :: 'a' :: 'y' :: digits => (ofDecimal? digits).map .array
  | _ => (ValueType.ofName? name).map .value

/-- Values of the type are references. -/
def isRef : OperandType → Bool
  | value ty => ty.isRef
  | struct _ | array _ => true

/-- The type once the value is on the stack. -/
def widened : OperandType → OperandType
  | value ty => .value ty.widened
  | struct id => .struct id
  | array id => .array id

/-- The value type, unless the type is a class reference. -/
def asValue? : OperandType → Option ValueType
  | value ty => some ty
  | struct _ | array _ => none

/-- Values of the type take two source slots. -/
def isWide : OperandType → Bool
  | value .i64 | value .f64 => true
  | _ => false

/-- Number of source slots that a value of the type takes. -/
def slotCount (ty : OperandType) : Nat := if ty.isWide then 2 else 1

/-- The value type that the type has in the signature of a host function. Packed types widen, and
every reference is a host reference. -/
def hostType : OperandType → ValueType
  | value ty => if ty.isSubWord then .i32 else if ty.isRef then .externRef else ty
  | struct _ | array _ => .externRef

@[simp]
theorem widened_widened (ty : OperandType) : ty.widened.widened = ty.widened := by
  cases ty <;> simp [widened]

end OperandType

end WasmBackend
