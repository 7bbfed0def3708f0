import WasmBackend.Error

/-! # Local variables

Source code uses one slot for values of different types; a local of the target has one type. The
slot table of a function gives every pair of a slot and a stack type a local of its own. Parameters
come first. -/

namespace WasmBackend

/-- The locals of one function. -/
structure SlotTable where
  /-- Locals that were given to a slot and a type, newest first. -/
  slots : List ((Nat × OperandType) × Nat) := []
  /-- Types of all locals, parameters included, in index order. -/
  types : List OperandType := []
  paramCount : Nat := 0
  deriving DecidableEq

namespace SlotTable

/-- Number of parameters and locals. -/
def size (t : SlotTable) : Nat := t.types.length

/-- The local of a slot and a stack type. -/
def find? (t : SlotTable) (slot : Nat) (ty : OperandType) : Option Nat :=
  t.slots.lookup (slot, ty)

/-- The table with a new local for a slot and a stack type. -/
def allocate (t : SlotTable) (slot : Nat) (ty : OperandType) : SlotTable :=
  { t with slots := ((slot, ty), t.size) :: t.slots, types := t.types ++ [ty] }

/-- Adds the next parameter, which must come before any other local. -/
def addParam (t : SlotTable) (slot : Nat) (ty : OperandType) :
    Except CompileError Nat × SlotTable :=
  if t.size = t.paramCount then
    (.ok t.size, { t.allocate slot ty.widened with paramCount := t.paramCount + 1 })
  else (.error (.ofFault (.lateParameter slot)), t)

/-- The local of a slot used with a type, allocated if it is new. -/
def resolve (t : SlotTable) (slot : Nat) (ty : OperandType) : Nat × SlotTable :=
  match t.find? slot ty.widened with
  | some index => (index, t)
  | none => (t.size, t.allocate slot ty.widened)

/-- A new local that belongs to no slot. -/
def addTemporary (t : SlotTable) (ty : OperandType) : Nat × SlotTable :=
  (t.size, { t with types := t.types ++ [ty.widened] })

/-- The type of a local. -/
def typeOf (t : SlotTable) (index : Nat) : Except CompileError OperandType :=
  match t.types[index]? with
  | some ty => .ok ty
  | none => .error (.unknownLocal index)

/-- Types of the locals that are not parameters, in index order. -/
def localTypes (t : SlotTable) : List OperandType := t.types.drop t.paramCount

/-- Adds parameters from a slot on; a wide one takes two slots. -/
def addParamsFrom (t : SlotTable) : (slot : Nat) → List OperandType → Except CompileError SlotTable
  | _, [] => .ok t
  | slot, ty :: rest =>
    match t.addParam slot ty with
    | (.ok _, next) => next.addParamsFrom (slot + ty.slotCount) rest
    | (.error e, _) => .error e

/-- The table of a function with these parameters. -/
def ofParams (params : List OperandType) : Except CompileError SlotTable :=
  addParamsFrom {} 0 params

@[simp]
theorem size_allocate (t : SlotTable) (slot : Nat) (ty : OperandType) :
    (t.allocate slot ty).size = t.size + 1 := by
  simp [allocate, size]

end SlotTable

end WasmBackend
