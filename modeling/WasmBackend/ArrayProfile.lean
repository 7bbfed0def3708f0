import WasmBackend.FunctionRegistry
import WasmBackend.Lowering
import WasmBackend.Options

/-! # Array code by profile

With native types an element access is inline code, and only allocation calls a helper function, one
for each array class. Without them every array operation calls a helper of the host, which keeps the
buffer in a sealed object of vtable, hash code and buffer.

A host helper is shared by all element types with the same type in host signatures. Only allocation
depends on the element type itself, which determines the kind of buffer. -/

namespace WasmBackend.ArrayProfile

/-- Class of the allocation helpers in target code. -/
def helperClass : String := "jwasm/runtime/Arrays"

/-- A class name as part of a host identifier. -/
def hostIdentifier (name : String) : String :=
  let kept := name.toList.filter (· ≠ ';')
  String.ofList (kept.map fun c => if c = '[' ∨ c = '/' ∨ c = '.' then '_' else c)

/-- The part of a helper's name that stands for the element type. -/
def elementName (a : ArrayClass) (types : TypeRegistry) : Except CompileError String :=
  match a.element with
  | .value ty => .ok ty.name
  | ty => (types.typeName ty).map hostIdentifier

/-- A function of the given class, with the signature that its types determine. -/
def helperName (types : TypeRegistry) (className methodName : String) (params : List OperandType)
    (result : Option OperandType) : Except CompileError FunctionName :=
  (types.methodDescriptor params result).map fun signature =>
    { className, methodName, signature, params, result }

/-! ### Native types -/

/-- Body of an allocation helper: a wrapper with the given vtable, hash code zero and a buffer of
the length in the first parameter. -/
def allocation (vtable : TargetOp) (a : ArrayClass) (native : NativeArray) : FunctionBody :=
  .code [vtable, TargetOp.i32Const 0, TargetOp.indexed .localGet 0,
    TargetOp.indexed .arrayNewDefault native.typeIndex, TargetOp.indexed .structNew a.typeIndex,
    TargetOp.plain .ret]

/-- The helper of an operation on native arrays; an access has none. -/
def nativeHelper (op : ArrayOp) (a : ArrayClass) (types : TypeRegistry) :
    Except CompileError (Option (FunctionName × FunctionBody)) := do
  let native ← a.native
  let element ← elementName a types
  match op with
  | .new =>
    let name ← helperName types helperClass ("array_new_" ++ element) [.i32] a.operandType
    return some (name, allocation (.i32Const (Int32.ofNat a.vtable)) a native)
  | .newWithDescriptor =>
    let name ← helperName types helperClass ("array_new_rtt_" ++ element) [.i32, .i32]
      a.operandType
    return some (name, allocation (.indexed .localGet 1) a native)
  | .get | .getSigned | .getUnsigned | .set | .len => return none

/-! ### Host arrays -/

/-- Host expression for a buffer of length `l`. -/
def hostBuffer : OperandType → String
  | .value .i8 => "new Int8Array(l)"
  | .value .bool => "new Uint8Array(l)"
  | .value .i16 => "new Int16Array(l)"
  | .value .u16 => "new Uint16Array(l)"
  | .value .i32 => "new Int32Array(l)"
  | .value .i64 => "new BigInt64Array(l)"
  | .value .f32 => "new Float32Array(l)"
  | .value .f64 => "new Float64Array(l)"
  | _ => "Object.seal(new Array(l).fill(null))"

/-- Host expression for an array object with a vtable and a buffer. -/
def hostObject (vtable buffer : String) : String :=
  "Object.seal(\x7b0:" ++ vtable ++ ",1:0,2:" ++ buffer ++ "\x7d)"

/-- The helper of an operation on host arrays. -/
def hostHelper (op : ArrayOp) (a : ArrayClass) (types : TypeRegistry) (options : Options) :
    Except CompileError (FunctionName × FunctionBody) := do
  let reference : OperandType := .value .externRef
  let hostType := a.element.hostType
  let helper := fun (method : String) (params : List OperandType) (result : Option OperandType)
      (script : String) => do
    let name ← helperName types options.hostModule method params result
    return (name, FunctionBody.hostScript options.hostModule script)
  match op with
  | .new =>
    let element ← elementName a types
    helper ("array_new_" ++ element) [.i32] a.operandType
      ("(l)=>" ++ hostObject (toString a.vtable) (hostBuffer a.element))
  | .newWithDescriptor =>
    let element ← elementName a types
    helper ("array_new_rtt_" ++ element) [.i32, .i32] a.operandType
      ("(l,t)=>" ++ hostObject "t" (hostBuffer a.element))
  | .get | .getSigned | .getUnsigned =>
    helper ("array_get_" ++ hostType.name) [reference, .i32] (some (.value hostType))
      "(a,i)=>a[2][i]"
  | .set =>
    helper ("array_set_" ++ hostType.name) [reference, .i32, .value hostType] none
      "(a,i,v)=>a[2][i]=v"
  | .len => helper "array_len" [reference] (some .i32) "(a)=>a[2].length"

/-! ### Choice of the profile -/

/-- The helper that an array operation needs in the profile of the options, if any. -/
def helper? (op : ArrayOp) (a : ArrayClass) (types : TypeRegistry) (options : Options) :
    Except CompileError (Option (FunctionName × FunctionBody)) :=
  if options.useGc then nativeHelper op a types
  else (hostHelper op a types options).map some

/-- The number of the helper that an array operation needs, if any; the helper is registered. -/
def select (op : ArrayOp) (array : Nat) (options : Options) (types : TypeRegistry)
    (functions : FunctionRegistry) : Except CompileError (Option Nat × FunctionRegistry) := do
  let a ← types.arrayClass array
  match ← helper? op a types options with
  | some (name, body) =>
    let (id, functions) := functions.markSynthetic name body
    return (some id, functions)
  | none => return (none, functions)

end WasmBackend.ArrayProfile
