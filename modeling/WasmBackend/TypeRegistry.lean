import WasmBackend.Error

/-! # Registry of classes

The struct and array classes of one module. A class gets a number of its own kind, an index in the
type section and a vtable number when it is registered. A struct class is known by its name, an
array class by its element type; asking again for a known class gives the same number.

An array is held in a wrapper struct of vtable, hash code and buffer, so that it behaves like any
other object. With native types the class has a second entry in the type section for the buffer.
Class references are *lowered* to references to the type section, or to host references when native
types are missing. -/

namespace WasmBackend

/-- A struct class. -/
structure StructClass where
  id : Nat
  name : String
  vtable : Nat
  typeIndex : Nat
  fields : List OperandType
  deriving DecidableEq

/-- The native array type that is the buffer of an array class. -/
structure NativeArray where
  typeIndex : Nat
  /-- Storage type of an element; packed types stay packed. -/
  storage : WasmType
  deriving DecidableEq

/-- An array class. -/
structure ArrayClass where
  id : Nat
  element : OperandType
  /-- Descriptor of the class, such as `[I`. -/
  name : String
  vtable : Nat
  /-- Index of the wrapper struct. -/
  typeIndex : Nat
  /-- Type of an element as a local or parameter. -/
  elementLocal : WasmType
  native? : Option NativeArray
  deriving DecidableEq

namespace ArrayClass

/-- The type of a reference to an array of the class. -/
def operandType (a : ArrayClass) : OperandType := .array a.id

/-- The native array type, which inline code needs. -/
def native (a : ArrayClass) : Except CompileError NativeArray :=
  match a.native? with
  | some n => .ok n
  | none => .error (.ofFault (.noNativeArray a.name))

end ArrayClass

/-- The classes of one module. -/
structure TypeRegistry where
  /-- Native struct and array types are available. -/
  useGc : Bool
  structs : List StructClass
  arrays : List ArrayClass
  nextTypeIndex : Nat
  nextVtable : Nat
  deriving DecidableEq

namespace TypeRegistry

/-! ### Struct classes -/

/-- The number of the struct class with a name. -/
def structByName? (t : TypeRegistry) (name : String) : Option Nat :=
  (t.structs.find? fun s => s.name = name).map StructClass.id

/-- The number of the struct class with a name, registered if it is new. The fields of a known class
do not change. -/
def registerStruct (t : TypeRegistry) (name : String) (fields : List OperandType) :
    Nat × TypeRegistry :=
  match t.structByName? name with
  | some id => (id, t)
  | none =>
    let id := t.structs.length
    let added : StructClass :=
      { id, name, fields, vtable := t.nextVtable, typeIndex := t.nextTypeIndex }
    (id, { t with
      structs := t.structs ++ [added]
      nextTypeIndex := t.nextTypeIndex + 1
      nextVtable := t.nextVtable + 1 })

/-- Name of the string class. -/
def stringClassName : String := "java/lang/String"

/-- The registry of a module in which nothing but the string class is known. -/
def new (useGc : Bool) : TypeRegistry :=
  let empty : TypeRegistry :=
    { useGc, structs := [], arrays := [], nextTypeIndex := 0, nextVtable := 0 }
  (empty.registerStruct stringClassName [.i32, .i32]).2

/-- The type of string references; the string class is registered before any other. -/
def stringType : OperandType := .struct 0

/-- The struct class with a number. -/
def structClass (t : TypeRegistry) (id : Nat) : Except CompileError StructClass :=
  match t.structs[id]? with
  | some s => .ok s
  | none => .error (.ofFault (.unknownStruct id))

/-- The array class with a number. -/
def arrayClass (t : TypeRegistry) (id : Nat) : Except CompileError ArrayClass :=
  match t.arrays[id]? with
  | some a => .ok a
  | none => .error (.ofFault (.unknownArray id))

/-! ### Names of types -/

/-- Descriptor of a value type. -/
def valueDescriptor : ValueType → String
  | .i32 => "I"
  | .i64 => "J"
  | .f32 => "F"
  | .f64 => "D"
  | .i8 => "B"
  | .i16 => "S"
  | .u16 => "C"
  | .bool => "Z"
  | .funcRef | .externRef | .anyRef | .eqRef => "Ljava/lang/Object;"

/-- Descriptor of a type. -/
def descriptor (t : TypeRegistry) : OperandType → Except CompileError String
  | .value ty => .ok (valueDescriptor ty)
  | .struct id => (t.structClass id).map fun s => s!"L{s.name};"
  | .array id => (t.arrayClass id).map ArrayClass.name

/-- Descriptor of a method, such as `(II)[I`. -/
def methodDescriptor (t : TypeRegistry) (params : List OperandType) (result : Option OperandType) :
    Except CompileError String := do
  let params ← params.mapM t.descriptor
  let result ← match result with
    | some ty => t.descriptor ty
    | none => .ok "V"
  return "(" ++ String.join params ++ ")" ++ result

/-- Readable name of a type: the class name of a class reference. -/
def typeName (t : TypeRegistry) : OperandType → Except CompileError String
  | .value ty => .ok ty.name
  | .struct id => (t.structClass id).map StructClass.name
  | .array id => (t.arrayClass id).map ArrayClass.name

/-! ### Lowering -/

/-- The target type of references to the class with a type index. -/
def classReference (t : TypeRegistry) (typeIndex : Nat) : WasmType :=
  if t.useGc then .ref typeIndex else .value .externRef

/-- The target type of a local, parameter or stack value. -/
def lower (t : TypeRegistry) : OperandType → Except CompileError WasmType
  | .value ty => .ok (.value ty.widened)
  | .struct id => (t.structClass id).map fun s => t.classReference s.typeIndex
  | .array id => (t.arrayClass id).map fun a => t.classReference a.typeIndex

/-- The target types of some locals or parameters. -/
def lowerAll (t : TypeRegistry) (types : List OperandType) : Except CompileError (List WasmType) :=
  types.mapM t.lower

/-- The target type of a result. -/
def lowerResult (t : TypeRegistry) : Option OperandType → Except CompileError (Option WasmType)
  | some ty => (t.lower ty).map some
  | none => .ok none

/-- The target type of an array element in storage; packed types stay packed. -/
def storageType (t : TypeRegistry) : OperandType → Except CompileError WasmType
  | .value ty => .ok (.value ty)
  | ty => t.lower ty

/-! ### Array classes -/

/-- The number of the array class with an element type. -/
def arrayOf? (t : TypeRegistry) (element : OperandType) : Option Nat :=
  (t.arrays.find? fun a => a.element = element).map ArrayClass.id

/-- The registry with a new array class. With native types the buffer comes first in the type
section. -/
def addArray (t : TypeRegistry) (element : OperandType) (name : String)
    (elementLocal storage : WasmType) : TypeRegistry :=
  let wrapperIndex := if t.useGc then t.nextTypeIndex + 1 else t.nextTypeIndex
  let added : ArrayClass :=
    { id := t.arrays.length, element, name, vtable := t.nextVtable, typeIndex := wrapperIndex
      elementLocal
      native? := if t.useGc then some { typeIndex := t.nextTypeIndex, storage } else none }
  { t with
    arrays := t.arrays ++ [added]
    nextTypeIndex := wrapperIndex + 1
    nextVtable := t.nextVtable + 1 }

/-- The number of the array class with an element type, registered if it is new. -/
def internArray (t : TypeRegistry) (element : OperandType) :
    Except CompileError Nat × TypeRegistry :=
  match t.arrayOf? element with
  | some id => (.ok id, t)
  | none =>
    let added := do
      let descriptor ← t.descriptor element
      let elementLocal ← t.lower element
      let storage ← t.storageType element
      return t.addArray element ("[" ++ descriptor) elementLocal storage
    match added with
    | .ok t' => (.ok t.arrays.length, t')
    | .error e => (.error e, t)

end TypeRegistry

end WasmBackend
