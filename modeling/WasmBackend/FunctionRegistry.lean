import WasmBackend.Code
import WasmBackend.Error

/-! # Registry of functions

The functions that one module needs, in the order in which they were first asked for. A function is
known by its qualified name and signature; its number is its place in the registry and never
changes.

In the finished module imported functions come before functions with a body, each group in registry
order. `ModuleIndices` holds the indices that functions have there. -/

namespace WasmBackend

/-- Qualified name of a function and its stack signature. -/
structure FunctionName where
  className : String
  methodName : String
  /-- Method descriptor, such as `(I)V`. -/
  signature : String
  params : List OperandType
  result : Option OperandType
  deriving DecidableEq

namespace FunctionName

/-- Class and method. -/
def fullName (n : FunctionName) : String := n.className ++ "." ++ n.methodName

/-- Class, method and signature, by which the registry knows the function. -/
def signatureName (n : FunctionName) : String := n.className ++ "." ++ n.methodName ++ n.signature

end FunctionName

/-- Body of a function that is not compiled from source. -/
inductive FunctionBody
  | code (ops : List CodeOp)
  /-- A script that is imported from a module of the host. -/
  | hostScript (hostModule script : String)
  deriving DecidableEq

namespace FunctionBody

/-- A function with this body is imported. -/
def isImport : FunctionBody → Bool
  | code _ => false
  | hostScript _ _ => true

end FunctionBody

/-- A function that the module needs. -/
structure FunctionEntry where
  id : Nat
  name : FunctionName
  isImport : Bool
  /-- Absent for a function that is compiled from source. -/
  body : Option FunctionBody
  deriving DecidableEq

/-- The functions of one module. -/
structure FunctionRegistry where
  entries : List FunctionEntry := []
  deriving DecidableEq

namespace FunctionRegistry

/-- The number of a function. -/
def lookup (r : FunctionRegistry) (name : FunctionName) : Option Nat :=
  r.entries.findIdx? fun e => e.name.signatureName = name.signatureName

/-- The function with a number. -/
def get? (r : FunctionRegistry) (id : Nat) : Option FunctionEntry := r.entries[id]?

/-- The function with a number, which must be known. -/
def entry (r : FunctionRegistry) (id : Nat) : Except CompileError FunctionEntry :=
  match r.get? id with
  | some e => .ok e
  | none => .error (.ofFault (.unknownFunction id))

/-! ### Asking for functions -/

/-- The registry with a new function at its end. -/
def add (r : FunctionRegistry) (name : FunctionName) (isImport : Bool)
    (body : Option FunctionBody) : FunctionRegistry :=
  ⟨r.entries ++ [{ id := r.entries.length, name, isImport, body }]⟩

/-- The number of a function, which is added if it is new. -/
def insert (r : FunctionRegistry) (name : FunctionName) (isImport : Bool)
    (body : Option FunctionBody) : Nat × FunctionRegistry :=
  match r.lookup name with
  | some id => (id, r)
  | none => (r.entries.length, r.add name isImport body)

/-- Asks for a function that is compiled from source or provided by the host. -/
def mark (r : FunctionRegistry) (name : FunctionName) (isImport : Bool) : Nat × FunctionRegistry :=
  r.insert name isImport none

/-- Asks for a function with a body; a known function stays as it is. -/
def markSynthetic (r : FunctionRegistry) (name : FunctionName) (body : FunctionBody) :
    Nat × FunctionRegistry :=
  r.insert name body.isImport (some body)

/-- Asks for a function with a body, which replaces the body of a known function. -/
def markReplacing (r : FunctionRegistry) (name : FunctionName) (body : FunctionBody) :
    Nat × FunctionRegistry :=
  match r.lookup name with
  | some id =>
    (id, ⟨r.entries.modify id fun e => { e with isImport := body.isImport, body := some body }⟩)
  | none => (r.entries.length, r.add name body.isImport (some body))

/-! ### Views -/

/-- Number of functions. -/
def count (r : FunctionRegistry) : Nat := r.entries.length

/-- Number of imported functions. -/
def importCount (r : FunctionRegistry) : Nat := r.entries.countP FunctionEntry.isImport

/-- The functions whose body is target code. -/
def codeFunctions (r : FunctionRegistry) : List (FunctionEntry × List CodeOp) :=
  r.entries.filterMap fun e =>
    match e.body with
    | some (.code ops) => some (e, ops)
    | _ => none

/-- The functions whose body is a host script. -/
def hostImports (r : FunctionRegistry) : List FunctionEntry :=
  r.entries.filter fun e =>
    match e.body with
    | some (.hostScript _ _) => true
    | _ => false

/-- Numbers imports and other functions upwards from two starting points. -/
def numberFrom : (nextImport nextDefined : Nat) → List FunctionEntry → List Nat
  | _, _, [] => []
  | nextImport, nextDefined, e :: rest =>
    if e.isImport then nextImport :: numberFrom (nextImport + 1) nextDefined rest
    else nextDefined :: numberFrom nextImport (nextDefined + 1) rest

/-- Index of every function in the finished module: imports first. -/
def moduleIndices (r : FunctionRegistry) : List Nat := numberFrom 0 r.importCount r.entries

end FunctionRegistry

/-- Indices of the functions known when a module is finished. -/
structure ModuleIndices where
  indices : List Nat
  importCount : Nat
  deriving DecidableEq

namespace ModuleIndices

/-- The indices of the functions of a registry. -/
def ofRegistry (r : FunctionRegistry) : ModuleIndices := ⟨r.moduleIndices, r.importCount⟩

/-- The index of a function. -/
def get (m : ModuleIndices) (id : Nat) : Except CompileError Nat :=
  match m.indices[id]? with
  | some index => .ok index
  | none => .error (.ofFault (.unknownFunction id))

end ModuleIndices

end WasmBackend
