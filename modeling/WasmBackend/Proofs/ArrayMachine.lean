import WasmBackend.Emission
import WasmBackend.Proofs.HostScript
import WasmBackend.Proofs.TypeRegistry

/-! # A machine for array code

Runs the code of array operations on values. Native arrays live on a heap of structs and arrays, host
arrays on the heap of the host. An element of either is a bit pattern.

* `pack`, `unpack`: what a native array does to a value that is stored or read;
* `Value.toHost?`, `Value.ofHost?`: values on their way to a host function and back;
* `step`, `run`: execution of generated code. A call runs the body that the registry holds. -/

namespace WasmBackend.Machine

/-! ### Values and objects -/

/-- A value on the stack. -/
inductive Value
  | i32 (v : Int32)
  | i64 (v : Int64)
  | f32 (v : F32)
  | f64 (v : F64)
  /-- Reference to a native object. -/
  | ref (address : Nat)
  /-- Reference to a value of the host. -/
  | host (v : Host.Value)
  deriving DecidableEq

/-- The value of a constant. -/
def Value.ofLiteral : Literal → Value
  | .i32 v => i32 v
  | .i64 v => i64 v
  | .f32 v => f32 v
  | .f64 v => f64 v

/-- A native object and the index of its type. -/
inductive Object
  | struct (typeIndex : Nat) (fields : List Value)
  /-- Bit patterns of the elements. -/
  | array (typeIndex : Nat) (elements : List Nat)
  deriving DecidableEq

/-- State of the machine. -/
structure State where
  /-- Operands, the topmost first. -/
  stack : List Value := []
  /-- Locals, the last assignment first. -/
  locals : List (Nat × Value) := []
  scratch : List ((Nat × WasmType) × Value) := []
  /-- Native objects by address. -/
  objects : List Object := []
  host : Host.Heap := []

/-- Bits of an element in storage. -/
def storageBits : ValueType → Nat
  | .i8 | .bool => 8
  | .i16 | .u16 => 16
  | .i32 | .f32 => 32
  | .i64 | .f64 => 64
  | _ => 0

/-- The pattern of a value in storage: packed storage keeps the low bits. -/
def pack (ty : ValueType) (v : Value) : Option Nat :=
  match ty, v with
  | .i8, .i32 v | .bool, .i32 v | .i16, .i32 v | .u16, .i32 v | .i32, .i32 v =>
    some (v.toInt % (Nat.pow 2 (storageBits ty) : Nat)).toNat
  | .i64, .i64 v => some (v.toInt % (Nat.pow 2 (storageBits ty) : Nat)).toNat
  | .f32, .f32 x => some x.bits.toNat
  | .f64, .f64 x => some x.bits.toNat
  | _, _ => none

/-- The value of a pattern in storage. Packed storage is read with an extension, by its sign bit or by
zeros. -/
def unpack (op : Opcode) (ty : ValueType) (pattern : Nat) : Option Value :=
  match op, ty with
  | .arrayGetS, .i8 | .arrayGetS, .bool | .arrayGetS, .i16 | .arrayGetS, .u16 =>
    some (.i32 (Int32.ofInt (Int.bmod pattern (Nat.pow 2 (storageBits ty)))))
  | .arrayGetU, .i8 | .arrayGetU, .bool | .arrayGetU, .i16 | .arrayGetU, .u16 =>
    some (.i32 (Int32.ofInt pattern))
  | .arrayGet, .i32 => some (.i32 (Int32.ofInt pattern))
  | .arrayGet, .i64 => some (.i64 (Int64.ofInt pattern))
  | .arrayGet, .f32 => some (.f32 ⟨UInt32.ofNat pattern⟩)
  | .arrayGet, .f64 => some (.f64 ⟨UInt64.ofNat pattern⟩)
  | _, _ => none

/-! ### The border to the host -/

/-- A value as an argument of a host function. -/
def Value.toHost? : Value → Option Host.Value
  | i32 v => some (.number (F64.ofInt v.toInt))
  | i64 v => some (.bigInt v.toInt)
  | f32 x => some (.number (F64.round x.value))
  | f64 x => some (.number x)
  | host v => some v
  | ref _ => none

/-- The result of a host function as a value of a type. -/
def Value.ofHost? (ty : ValueType) (v : Host.Value) : Option Value :=
  match ty with
  | .i32 => v.toNumber?.map fun x => i32 (Int32.ofInt (Host.toWord 32 x.value))
  | .i64 =>
    match v with
    | .bigInt n => some (i64 (Int64.ofInt n))
    | _ => none
  | .f32 => v.toNumber?.map fun x => f32 (F32.round x.value)
  | .f64 => v.toNumber?.map f64
  | .externRef => some (host v)
  | _ => none

/-! ### Instructions -/

/-- An index or length as an unsigned number. -/
def unsigned (v : Int32) : Nat := (v.toInt % (Nat.pow 2 32 : Nat)).toNat

/-- Storage type and elements of the array of a type at an address. -/
def arrayAt? (types : TypeRegistry) (s : State) (index address : Nat) :
    Option (ValueType × List Nat) :=
  match types.typeAt? index, s.objects[address]? with
  | some (.buffer (.value ty)), some (.array typeIndex elements) =>
    if typeIndex = index then some (ty, elements) else none
  | _, _ => none

/-- A new object, with a reference to it on the given stack. -/
def State.allocate (s : State) (object : Object) (stack : List Value) : State :=
  { s with stack := .ref s.objects.length :: stack, objects := s.objects ++ [object] }

/-- An instruction with an index. -/
def stepIndexed (types : TypeRegistry) (s : State) (op : Opcode) (index : Nat) : Option State :=
  match op, s.stack with
  | .localGet, stack => (s.locals.lookup index).map fun v => { s with stack := v :: stack }
  | .localSet, v :: stack => some { s with stack, locals := (index, v) :: s.locals }
  | .arrayNewDefault, .i32 n :: stack =>
    match types.typeAt? index with
    | some (.buffer _) => some (s.allocate (.array index (List.replicate (unsigned n) 0)) stack)
    | _ => none
  | .structNew, stack =>
    match types.typeAt? index with
    | some (.wrapper fields) =>
      if fields.length ≤ stack.length then
        some (s.allocate (.struct index (stack.take fields.length).reverse)
          (stack.drop fields.length))
      else none
    | _ => none
  | .arraySet, v :: .i32 i :: .ref address :: stack => do
    let (ty, elements) ← arrayAt? types s index address
    let pattern ← pack ty v
    if unsigned i < elements.length then
      some { s with
        stack, objects := s.objects.set address (.array index (elements.set (unsigned i) pattern)) }
    else none
  | op, .i32 i :: .ref address :: stack => do
    let (ty, elements) ← arrayAt? types s index address
    let pattern ← elements[unsigned i]?
    let v ← unpack op ty pattern
    some { s with stack := v :: stack }
  | _, _ => none

/-- An instruction without immediates. -/
def stepPlain (s : State) (op : Opcode) : Option State :=
  match op, s.stack with
  | .i32And, .i32 b :: .i32 a :: stack => some { s with stack := .i32 (a &&& b) :: stack }
  | .i32Extend8S, .i32 a :: stack =>
    some { s with stack := .i32 (Int32.ofInt (Int.bmod a.toInt (Nat.pow 2 8))) :: stack }
  | .i32Extend16S, .i32 a :: stack =>
    some { s with stack := .i32 (Int32.ofInt (Int.bmod a.toInt (Nat.pow 2 16))) :: stack }
  | .arrayLen, .ref address :: stack =>
    match s.objects[address]? with
    | some (.array _ elements) =>
      some { s with stack := .i32 (Int32.ofInt elements.length) :: stack }
    | _ => none
  | _, _ => none

/-- A target instruction. -/
def stepTarget (types : TypeRegistry) (s : State) : TargetOp → Option State
  | .i32Const v => some { s with stack := .i32 v :: s.stack }
  | .i64Const v => some { s with stack := .i64 v :: s.stack }
  | .f32Const v => some { s with stack := .f32 v :: s.stack }
  | .f64Const v => some { s with stack := .f64 v :: s.stack }
  | .plain op => stepPlain s op
  | .indexed op index => stepIndexed types s op index
  | .structGet index field =>
    match s.stack with
    | .ref address :: stack =>
      match s.objects[address]? with
      | some (.struct typeIndex fields) =>
        if typeIndex = index then fields[field]?.map fun v => { s with stack := v :: stack }
        else none
      | _ => none
    | _ => none
  | .block _ => none

/-- A code operation. -/
def stepCode (types : TypeRegistry) (s : State) : CodeOp → Option State
  | .target op => stepTarget types s op
  | .scratchSet n ty =>
    match s.stack with
    | v :: stack => some { s with stack, scratch := ((n, ty), v) :: s.scratch }
    | [] => none
  | .scratchGet n ty => (s.scratch.lookup (n, ty)).map fun v => { s with stack := v :: s.stack }

/-! ### Calls -/

/-- The body of a function up to its return. -/
def runBody (types : TypeRegistry) : State → List CodeOp → Option State
  | s, [] => some s
  | s, .target (.plain .ret) :: _ => some s
  | s, op :: rest => (stepCode types s op).bind fun s => runBody types s rest

/-- The state after a host function with the given result type has returned. -/
def returnHost (s : State) (stack : List Value) (heap : Host.Heap) (v : Host.Value) :
    Option OperandType → Option State
  | none => some { s with stack, host := heap }
  | some ty => (Value.ofHost? ty.hostType v).map fun v => { s with stack := v :: stack, host := heap }

/-- The call of a function with a body: target code runs with its arguments as locals, a script runs
on the heap of the host. -/
def callBody (types : TypeRegistry) (name : FunctionName) (s : State) (args stack : List Value) :
    FunctionBody → Option State
  | .code ops => do
    let frame : State :=
      { locals := (List.range args.length).zip args, objects := s.objects, host := s.host }
    let after ← runBody types frame ops
    return { s with
      stack := after.stack.take name.result.toList.length ++ stack
      objects := after.objects, host := after.host }
  | .hostScript _ text => do
    let script ← Host.Script.parse text
    let args ← args.mapM Value.toHost?
    let (v, heap) ← script.run args s.host
    returnHost s stack heap v name.result

/-- A call of the function with a number. -/
def call (types : TypeRegistry) (functions : FunctionRegistry) (s : State) (callee : Nat) :
    Option State := do
  let e ← functions.get? callee
  let body ← e.body
  let count := e.name.params.length
  if count ≤ s.stack.length then
    callBody types e.name s (s.stack.take count).reverse (s.stack.drop count) body
  else none

/-- One item of generated code. -/
def step (types : TypeRegistry) (functions : FunctionRegistry) (s : State) :
    Emission → Option State
  | .op op => stepCode types s op
  | .call _ callee _ => call types functions s callee

/-- Generated code from its first item to its last. -/
def run (types : TypeRegistry) (functions : FunctionRegistry) (s : State) (code : List Emission) :
    Option State :=
  code.foldlM (step types functions) s

section Run

variable {types : TypeRegistry} {functions : FunctionRegistry}

theorem run_cons (s : State) (e : Emission) (code : List Emission) :
    run types functions s (e :: code) =
      (step types functions s e).bind fun s => run types functions s code := rfl

theorem run_append (s : State) (code more : List Emission) :
    run types functions s (code ++ more) =
      (run types functions s code).bind fun s => run types functions s more := by
  simp [run, List.foldlM_append]

theorem run_literal (s : State) (v : Literal) (code : List Emission) :
    run types functions s (.target v.code :: code) =
      run types functions { s with stack := .ofLiteral v :: s.stack } code := by
  cases v <;> rfl

theorem run_localGet {s : State} {index : Nat} {v : Value} (h : s.locals.lookup index = some v)
    (code : List Emission) :
    run types functions s (.target (.indexed .localGet index) :: code) =
      run types functions { s with stack := v :: s.stack } code := by
  simp [run_cons, step, stepCode, stepTarget, stepIndexed, h]

theorem run_call {s s' : State} {name : FunctionName} {callee : Nat} {viewedAs : Option WasmType}
    (h : call types functions s callee = some s') (code : List Emission) :
    run types functions s (.call name callee viewedAs :: code) = run types functions s' code := by
  rw [run_cons, step, h, Option.bind_some]

theorem call_hostScript {s : State} {callee : Nat} {e : FunctionEntry} {args stack : List Value}
    {hostModule text : String} {script : Host.Script} {hostArgs : List Host.Value}
    {v : Host.Value} {heap : Host.Heap} (he : functions.get? callee = some e)
    (hbody : e.body = some (.hostScript hostModule text))
    (hstack : s.stack = args.reverse ++ stack) (hcount : e.name.params.length = args.length)
    (hparse : Host.Script.parse text = some script)
    (hargs : args.mapM Value.toHost? = some hostArgs)
    (hrun : script.run hostArgs s.host = some (v, heap)) :
    call types functions s callee = returnHost s stack heap v e.name.result := by
  have hle : e.name.params.length ≤ s.stack.length := by simp [hstack, hcount]
  have htake : (s.stack.take e.name.params.length).reverse = args := by
    rw [hstack, hcount, ← List.length_reverse, List.take_left, List.reverse_reverse]
  have hdrop : s.stack.drop e.name.params.length = stack := by
    rw [hstack, hcount, ← List.length_reverse, List.drop_left]
  simp only [call, he, hbody, Option.bind_eq_bind, Option.bind_some, if_pos hle, htake, hdrop,
    callBody, hparse, hargs, hrun]

end Run

end WasmBackend.Machine
