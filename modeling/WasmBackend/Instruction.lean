import WasmBackend.ArrayProfile
import WasmBackend.SlotTable
import WasmBackend.StringPool

/-! # Instructions

An instruction of a typed stack machine. Every kind of instruction declares a *contract*: the types
it pops, bottom to top, and the type it pushes. A pair of operator and type that has no meaning is an
error of every part of the contract.

Two kinds remember what they learned about the locals of the first function they were used in: an
access to a slot remembers its local, and an access to a local remembers its type. -/

namespace WasmBackend

/-- Kinds of instructions. -/
inductive InstrKind
  | const (value : Literal)
  | convert (conversion : Conversion)
  /-- Access to a local; `known` is its type once that has been looked up. -/
  | localVar (op : VariableOp) (index : Nat) (known : Option OperandType)
  /-- Access to a source slot; `resolved` is its local once that has been determined. -/
  | loadStore (op : VariableOp) (slot : Nat) (ty : OperandType) (resolved : Option Nat)
  | numeric (op : NumericOp) (ty : ValueType)
  /-- Operation on the array class with a number. -/
  | array (op : ArrayOp) (element : OperandType) (array : Nat)
  /-- Call; `viewedAs` replaces the result that the callee declares. -/
  | call (name : FunctionName) (viewedAs : Option OperandType)
  /-- Load of the string literal with a number. -/
  | stringConst (id : Nat) (ty : OperandType)
  /-- Control operator; `ty` is the operand of `RETURN` and `DROP`, `depth` the label of a branch. -/
  | control (op : ControlOp) (ty : Option OperandType) (depth : Nat)
  deriving DecidableEq

/-- An instruction and where it comes from. -/
structure Instruction where
  position : CodePosition
  kind : InstrKind
  deriving DecidableEq

namespace Instruction

/-! ### Building -/

/-- Constant from a boxed number. -/
def ofBoxed (n : BoxedNumber) (position : CodePosition) : Except CompileError Instruction :=
  (n.toLiteral position).map fun v => ⟨position, .const v⟩

/-- Access to a local. -/
def ofLocal (op : VariableOp) (index : Nat) (position : CodePosition) : Instruction :=
  ⟨position, .localVar op index none⟩

/-- Access to a source slot. -/
def ofSlot (op : VariableOp) (slot : Nat) (ty : OperandType) (position : CodePosition) :
    Instruction :=
  ⟨position, .loadStore op slot ty none⟩

/-- The control operator, if the instruction is one. -/
def controlOp? (i : Instruction) : Option ControlOp :=
  match i.kind with
  | .control op _ _ => some op
  | _ => none

/-! ### Locals -/

/-- Determines the local of a slot access; any other instruction stays as it is. -/
def resolve (i : Instruction) (slots : SlotTable) : Instruction × SlotTable :=
  match i.kind with
  | .loadStore op slot ty none =>
    let (index, slots) := slots.resolve slot ty
    (⟨i.position, .loadStore op slot ty (some index)⟩, slots)
  | _ => (i, slots)

/-- Determines the locals of all slot accesses, in order. -/
def resolveAll : List Instruction → SlotTable → List Instruction × SlotTable
  | [], slots => ([], slots)
  | i :: rest, slots =>
    let (i, slots) := i.resolve slots
    let (rest, slots) := resolveAll rest slots
    (i :: rest, slots)

/-- The type of the local that an instruction accesses: what it remembers, or what the table says. -/
def localType (known : Option OperandType) (index : Nat) (slots : SlotTable) :
    Except CompileError OperandType :=
  match known with
  | some ty => .ok ty
  | none => slots.typeOf index

/-- The instruction after its contract has been asked for: an access to a local remembers its type
if the table knows it. -/
def remember (i : Instruction) (slots : SlotTable) : Instruction :=
  match i.kind with
  | .localVar op index none =>
    match slots.typeOf index with
    | .ok ty => ⟨i.position, .localVar op index (some ty)⟩
    | .error _ => i
  | _ => i

/-! ### Contract -/

/-- The operator is defined on the type. -/
def checkNumeric (i : Instruction) (op : NumericOp) (ty : ValueType) : Except CompileError Unit :=
  match op.code? ty with
  | some _ => .ok ()
  | none =>
    .error (.unknownOperator (ty.name ++ "." ++ op.name) .numeric (some i.position))

/-- Types that a control operator pops. -/
def controlPops (i : Instruction) (op : ControlOp) (ty : Option OperandType) :
    Except CompileError (List OperandType) :=
  match op, ty with
  | .ret, some ty => .ok [ty.widened]
  | .ret, none => .ok []
  | .drop, some ty => .ok [ty.widened]
  | .drop, none => .error (.internal .dropWithoutOperand (some i.position))
  | .brIf, none => .ok [.i32]
  | _, none => .ok []
  | op, some ty =>
    .error (.unknownOperator (op.name ++ " with operand " ++ ty.name) .block (some i.position))

/-- Types popped from the operand stack, bottom to top. -/
def popTypes (i : Instruction) (slots : SlotTable) : Except CompileError (List OperandType) :=
  match i.kind with
  | .const _ | .stringConst _ _ => .ok []
  | .convert conversion => .ok [.value conversion.popType]
  | .localVar op index known =>
    match op with
    | .get => .ok []
    | .set | .tee => (localType known index slots).map fun ty => [ty]
  | .loadStore op _ ty _ =>
    match op with
    | .get => .ok []
    | .set | .tee => .ok [ty.widened]
  | .numeric op ty => do
    i.checkNumeric op ty
    return if op.isUnary then [.value ty] else [.value ty, .value ty]
  | .array op element array =>
    match op with
    | .new => .ok [.i32]
    | .newWithDescriptor => .ok [.i32, .i32]
    | .get | .getSigned | .getUnsigned => .ok [.array array, .i32]
    | .set => .ok [.array array, .i32, element.widened]
    | .len => .ok [.array array]
  | .call name _ => .ok (name.params.map OperandType.widened)
  | .control op ty _ => i.controlPops op ty

/-- Types popped from the operand stack, if anything is popped. -/
def popTypes? (i : Instruction) (slots : SlotTable) :
    Except CompileError (Option (List OperandType)) :=
  (i.popTypes slots).map fun types => if types.isEmpty then none else some types

/-- Number of values popped from the operand stack. -/
def popCount (i : Instruction) : Except CompileError Nat :=
  match i.kind with
  | .const _ | .stringConst _ _ => .ok 0
  | .convert _ => .ok 1
  | .localVar op _ _ | .loadStore op _ _ _ =>
    match op with
    | .get => .ok 0
    | .set | .tee => .ok 1
  | .numeric op ty => do
    i.checkNumeric op ty
    return if op.isUnary then 1 else 2
  | .array op _ _ =>
    match op with
    | .new | .len => .ok 1
    | .newWithDescriptor | .get | .getSigned | .getUnsigned => .ok 2
    | .set => .ok 3
  | .call name _ => .ok name.params.length
  | .control op ty _ => (i.controlPops op ty).map List.length

/-- The type pushed onto the operand stack, if any. -/
def pushType (i : Instruction) (slots : SlotTable) : Except CompileError (Option OperandType) :=
  match i.kind with
  | .const value => .ok (some (.value value.type))
  | .convert conversion => .ok (some (.value conversion.pushType))
  | .localVar op index known =>
    match op with
    | .get | .tee => (localType known index slots).map some
    | .set => .ok none
  | .loadStore op _ ty _ =>
    match op with
    | .get | .tee => .ok (some ty.widened)
    | .set => .ok none
  | .numeric op ty => do
    i.checkNumeric op ty
    return if op.isComparison then some .i32 else some (.value ty)
  | .array op element array =>
    match op with
    | .new | .newWithDescriptor => .ok (some (.array array))
    | .get => .ok (some element)
    | .getSigned | .getUnsigned => .ok (some element.widened)
    | .set => .ok none
    | .len => .ok (some .i32)
  | .call name viewedAs => .ok (viewedAs <|> name.result)
  | .stringConst _ ty => .ok (some ty)
  | .control op ty _ => (i.controlPops op ty).map fun _ => none

end Instruction

end WasmBackend
