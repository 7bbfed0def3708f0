import WasmBackend.Emission
import WasmBackend.Proofs.TypeRegistry

/-! # Types of generated code

Generated code typed as the target validates it: an instruction takes operands of given types from
the stack and leaves others. Stacks are written top first, operands and results bottom to top.

* `operatorType?`: the operands and the result of an opcode without immediates.
* `signature?`: the operands and results of an emission. Locals have the types that the slot table
  records, scratch locals their own, and a call has the lowered types of the callee.
* `HasType`: code takes any stack with the given operands on top to the same stack with the given
  results instead. Code that is put together has a type if its parts have (`HasType.append`), and
  operands below those it needs stay (`HasType.frame`). -/

namespace WasmBackend.Typing

/-- Operands and result of a numeric opcode. -/
def operatorType? : Opcode → Option (List ValueType × ValueType)
  | .i32Eqz => some ([.i32], .i32)
  | .i32Eq | .i32Ne | .i32LtS | .i32GtS | .i32LeS | .i32GeS => some ([.i32, .i32], .i32)
  | .i64Eqz => some ([.i64], .i32)
  | .i64Eq | .i64Ne | .i64LtS | .i64GtS | .i64LeS | .i64GeS => some ([.i64, .i64], .i32)
  | .f32Eq | .f32Ne | .f32Lt | .f32Gt | .f32Le | .f32Ge => some ([.f32, .f32], .i32)
  | .f64Eq | .f64Ne | .f64Lt | .f64Gt | .f64Le | .f64Ge => some ([.f64, .f64], .i32)
  | .i32Add | .i32Sub | .i32Mul | .i32DivS | .i32RemS | .i32And | .i32Or | .i32Xor | .i32Shl
  | .i32ShrS | .i32ShrU => some ([.i32, .i32], .i32)
  | .i64Add | .i64Sub | .i64Mul | .i64DivS | .i64RemS | .i64And | .i64Or | .i64Xor | .i64Shl
  | .i64ShrS | .i64ShrU => some ([.i64, .i64], .i64)
  | .f32Neg => some ([.f32], .f32)
  | .f32Add | .f32Sub | .f32Mul | .f32Div => some ([.f32, .f32], .f32)
  | .f64Neg => some ([.f64], .f64)
  | .f64Add | .f64Sub | .f64Mul | .f64Div => some ([.f64, .f64], .f64)
  | .i32WrapI64 => some ([.i64], .i32)
  | .i32TruncSatF32S => some ([.f32], .i32)
  | .i32TruncSatF64S => some ([.f64], .i32)
  | .i64ExtendI32S => some ([.i32], .i64)
  | .i64TruncSatF32S => some ([.f32], .i64)
  | .i64TruncSatF64S => some ([.f64], .i64)
  | .f32ConvertI32S => some ([.i32], .f32)
  | .f32ConvertI64S => some ([.i64], .f32)
  | .f32DemoteF64 => some ([.f64], .f32)
  | .f64ConvertI32S => some ([.i32], .f64)
  | .f64ConvertI64S => some ([.i64], .f64)
  | .f64PromoteF32 => some ([.f32], .f64)
  | .i32Extend8S | .i32Extend16S => some ([.i32], .i32)
  | _ => none

/-- The type of a stored value on the stack. -/
def unpacked : WasmType → WasmType
  | .value ty => .value ty.widened
  | .ref index => .ref index

/-- The storage type is narrower than a stack value. -/
def isPacked : WasmType → Bool
  | .value ty => ty.isSubWord
  | .ref _ => false

/-- Operand and result types, bottom to top. -/
structure Signature where
  params : List WasmType
  results : List WasmType
  deriving DecidableEq

/-- What the types of code depend on. -/
structure Env where
  types : TypeRegistry
  slots : SlotTable
  /-- The function that types the call of a function with this name. -/
  callee : FunctionName → FunctionName := id

namespace Env

/-- The type of a local. -/
def localType? (env : Env) (index : Nat) : Option WasmType :=
  (do env.types.lower (← env.slots.typeOf index)).toOption

/-- The signature of a function. -/
def callType? (env : Env) (name : FunctionName) : Option Signature :=
  (do
    let params ← env.types.lowerAll name.params
    let result ← env.types.lowerResult name.result
    return ⟨params, result.toList⟩ : Except CompileError Signature).toOption

/-- The signature of an opcode with an index. A branch carries no values, since no block has a
result. -/
def indexedType? (env : Env) (op : Opcode) (index : Nat) : Option Signature :=
  match op with
  | .localGet => (env.localType? index).map fun ty => ⟨[], [ty]⟩
  | .localSet => (env.localType? index).map fun ty => ⟨[ty], []⟩
  | .localTee => (env.localType? index).map fun ty => ⟨[ty], [ty]⟩
  | .brIf => some ⟨[.value .i32], []⟩
  | .arrayGet =>
    match env.types.typeAt? index with
    | some (.buffer storage) =>
      if isPacked storage then none else some ⟨[.ref index, .value .i32], [storage]⟩
    | _ => none
  | .arrayGetS | .arrayGetU =>
    match env.types.typeAt? index with
    | some (.buffer storage) =>
      if isPacked storage then some ⟨[.ref index, .value .i32], [.value .i32]⟩ else none
    | _ => none
  | .arraySet =>
    match env.types.typeAt? index with
    | some (.buffer storage) => some ⟨[.ref index, .value .i32, unpacked storage], []⟩
    | _ => none
  | _ => none

/-- The signature of a target instruction, where `top` is on top of the stack: `drop` takes any
value, and `array.len` any array. -/
def targetType? (env : Env) (op : TargetOp) (top : Option WasmType) : Option Signature :=
  match op with
  | .plain .drop => top.map fun ty => ⟨[ty], []⟩
  | .plain .arrayLen =>
    match top with
    | some (.ref index) =>
      match env.types.typeAt? index with
      | some (.buffer _) => some ⟨[.ref index], [.value .i32]⟩
      | _ => none
    | _ => none
  | .plain op => (operatorType? op).map fun (params, result) => ⟨params.map .value, [.value result]⟩
  | .i32Const _ => some ⟨[], [.value .i32]⟩
  | .i64Const _ => some ⟨[], [.value .i64]⟩
  | .f32Const _ => some ⟨[], [.value .f32]⟩
  | .f64Const _ => some ⟨[], [.value .f64]⟩
  | .indexed op index => env.indexedType? op index
  | .structGet index field =>
    match env.types.typeAt? index with
    | some (.wrapper fields) => fields[field]?.map fun ty => ⟨[.ref index], [unpacked ty]⟩
    | _ => none
  | .block _ => none

/-- The signature of an emission, where `top` is on top of the stack. -/
def signature? (env : Env) (e : Emission) (top : Option WasmType) : Option Signature :=
  match e with
  | .op (.target op) => env.targetType? op top
  | .op (.scratchSet _ ty) => some ⟨[ty], []⟩
  | .op (.scratchGet _ ty) => some ⟨[], [ty]⟩
  | .call name _ _ => env.callType? (env.callee name)

/-- The stack after an emission. -/
def run (env : Env) (stack : List WasmType) (e : Emission) : Option (List WasmType) :=
  match env.signature? e stack.head? with
  | some sig =>
    if sig.params.reverse.isPrefixOf stack then
      some (sig.results.reverse ++ stack.drop sig.params.length)
    else none
  | none => none

/-- The stack after some code. -/
def runAll (env : Env) (stack : List WasmType) (code : List Emission) : Option (List WasmType) :=
  code.foldlM env.run stack

end Env

/-- Code takes operands of the given types, on top of any stack, to the given results. -/
def HasType (env : Env) (code : List Emission) (params results : List WasmType) : Prop :=
  ∀ s, env.runAll (params.reverse ++ s) code = some (results.reverse ++ s)

variable {env : Env}

theorem HasType.nil (types : List WasmType) : HasType env [] types types := fun _ => rfl

theorem HasType.append {code code' : List Emission} {params between results : List WasmType}
    (h : HasType env code params between) (h' : HasType env code' between results) :
    HasType env (code ++ code') params results := by
  intro s
  unfold Env.runAll
  rw [List.foldlM_append]
  show (env.runAll (params.reverse ++ s) code).bind _ = _
  rw [h s]
  exact h' s

theorem HasType.cons {e : Emission} {code : List Emission} {params between results : List WasmType}
    (h : HasType env [e] params between) (h' : HasType env code between results) :
    HasType env (e :: code) params results :=
  h.append h'

theorem HasType.frame {code : List Emission} {params results : List WasmType}
    (h : HasType env code params results) (below : List WasmType) :
    HasType env code (below ++ params) (below ++ results) := by
  intro s
  simp only [List.reverse_append, List.append_assoc]
  exact h (below.reverse ++ s)

theorem hasType_singleton {e : Emission} {params results : List WasmType}
    (h : ∀ s, env.signature? e (params.reverse ++ s).head? = some ⟨params, results⟩) :
    HasType env [e] params results := by
  intro s
  have hfits : params.reverse.isPrefixOf (params.reverse ++ s) := by
    rw [List.isPrefixOf_iff_prefix]
    exact List.prefix_append _ _
  have hdrop : (params.reverse ++ s).drop params.length = s := by
    rw [← List.length_reverse, List.drop_left]
  show (env.run (params.reverse ++ s) e).bind some = _
  unfold Env.run
  rw [h s]
  simp only [hfits, if_true, hdrop, Option.bind_some]

end WasmBackend.Typing
