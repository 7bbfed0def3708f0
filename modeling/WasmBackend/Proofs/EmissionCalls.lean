import WasmBackend.Proofs.ArrayTyping
import WasmBackend.Proofs.FunctionRegistry

/-! # Calls in generated code

Generated code calls a function by its number in the registry, never by an index of the finished
module, and only after the function has been asked for (`callsKnown_emissions`). The helpers that are
asked for call nothing themselves. -/

namespace WasmBackend

/-- The emission is no call, or a call of one of the first `n` functions. -/
def Emission.CallsBelow (n : Nat) : Emission → Prop
  | .op instr => instr.isCallFree = true
  | .call _ callee _ => callee < n

theorem Emission.CallsBelow.mono {n n' : Nat} (h : n ≤ n') {e : Emission} (he : e.CallsBelow n) :
    e.CallsBelow n' := by
  cases e with
  | op op => exact he
  | call name callee viewedAs => exact Nat.lt_of_lt_of_le he h

/-- A function that the emission calls is one of the first `n` functions. -/
def Emission.CalleeBelow (n : Nat) : Emission → Prop
  | .op _ => True
  | .call _ callee _ => callee < n

instance (n : Nat) : (e : Emission) → Decidable (e.CalleeBelow n)
  | .op _ => .isTrue trivial
  | .call _ callee _ => Nat.decLt callee n

theorem Emission.CallsBelow.calleeBelow {n : Nat} {e : Emission} (he : e.CallsBelow n) :
    e.CalleeBelow n := by
  cases e with
  | op op => exact trivial
  | call name callee viewedAs => exact he

/-- Functions have been added to the registry, with bodies that call nothing. -/
structure FunctionRegistry.Advances (r r' : FunctionRegistry) : Prop where
  count_le : r.count ≤ r'.count
  sound : r.Sound → r'.Sound

namespace FunctionRegistry

theorem Advances.refl (r : FunctionRegistry) : Advances r r := ⟨Nat.le_refl _, id⟩

theorem Advances.trans {r r' r'' : FunctionRegistry} (h : Advances r r') (h' : Advances r' r'') :
    Advances r r'' :=
  ⟨Nat.le_trans h.count_le h'.count_le, h'.sound ∘ h.sound⟩

theorem advances_mark (r : FunctionRegistry) (name : FunctionName) (isImport : Bool) :
    Advances r (r.mark name isImport).2 :=
  ⟨r.count_le_insert _ _ _, fun h => h.mark name isImport⟩

theorem advances_markSynthetic (r : FunctionRegistry) (name : FunctionName) {body : FunctionBody}
    (hbody : body.CallFree) : Advances r (r.markSynthetic name body).2 :=
  ⟨r.count_le_insert _ _ _, fun h => h.markSynthetic name hbody⟩

end FunctionRegistry

/-! ### Code without indices -/

/-- The instruction has the immediates of its opcode, and none of them is an index. -/
def TargetOp.isUnindexed (instr : TargetOp) : Bool := instr.hasShape && instr.indices.isEmpty

/-- None of the instructions has an index. -/
def Unindexed (ops : List TargetOp) : Prop := ∀ op ∈ ops, op.isUnindexed = true

theorem unindexed_conversion (c : Conversion) : Unindexed c.code := by
  unfold Unindexed
  cases c <;> decide

theorem unindexed_numericOp {op : NumericOp} {ty : ValueType} {ops : List TargetOp}
    (h : op.code ty = .ok ops) : Unindexed ops := by
  unfold NumericOp.code at h
  split at h
  · next hops =>
    cases h
    unfold Unindexed
    cases ty with
    | i32 => cases hops; cases op <;> decide
    | i64 => cases hops; cases op <;> decide
    | f32 | f64 =>
      obtain ⟨o, ho, rfl⟩ := Option.map_eq_some_iff.mp hops
      cases op <;> cases ho <;> decide
    | _ => cases hops
  · cases h

theorem unindexed_hostExtension (op : ArrayOp) (element : OperandType) :
    Unindexed (op.hostExtension element) := by
  unfold ArrayOp.hostExtension Unindexed
  split <;> decide

/-! ### Code without calls -/

theorem isCallFree_of_isUnindexed {op : TargetOp} (h : op.isUnindexed = true) :
    (CodeOp.target op).isCallFree = true := by
  obtain ⟨hshape, hindices⟩ := Bool.and_eq_true_iff.mp h
  have hcall : op.isCall = false := by
    cases op with
    | indexed opcode index => cases hindices
    | _ => rfl
  rw [CodeOp.isCallFree, hshape, hcall]
  rfl

theorem isCallFree_variableOp (op : VariableOp) (index : Nat) :
    (CodeOp.target (op.code index)).isCallFree = true := by
  cases op <;> rfl

theorem isCallFree_controlOp (op : ControlOp) (depth : Nat) :
    (CodeOp.target (op.code depth)).isCallFree = true := by
  cases op <;> rfl

theorem isUnindexed_literal (v : Literal) : v.code.isUnindexed = true := by
  cases v <;> rfl

theorem isCallFree_read (op : ArrayOp) (storage : WasmType) (index : Nat) :
    (CodeOp.target (.indexed (op.readOpcode storage) index)).isCallFree = true := by
  rcases Typing.readOpcode_cases op storage with ⟨-, h | h, -⟩ | ⟨-, h, -⟩
  · rw [h]
    rfl
  · rw [h]
    rfl
  · rw [h]
    rfl

theorem callFree_inlineCode {op : ArrayOp} {a : ArrayClass} {ops : List CodeOp}
    (h : op.inlineCode a = .ok ops) : ∀ o ∈ ops, o.isCallFree = true := by
  obtain ⟨native, -, h⟩ := bind_eq_ok.mp h
  cases op with
  | new | newWithDescriptor => cases h
  | get | getSigned | getUnsigned =>
    cases h
    intro o ho
    simp only [List.mem_cons, List.not_mem_nil, or_false] at ho
    rcases ho with rfl | rfl | rfl | rfl
    · rfl
    · rfl
    · rfl
    · exact isCallFree_read _ _ _
  | set | len =>
    cases h
    simp [ArrayClass.loadBuffer]

theorem callFree_constantBody (value : Int32) : (StringPool.constantBody value).CallFree := by
  simp [StringPool.constantBody, FunctionBody.CallFree]

theorem callFree_allocation {vtable : TargetOp} (h : (CodeOp.target vtable).isCallFree = true)
    (a : ArrayClass) (native : NativeArray) :
    (ArrayProfile.allocation vtable a native).CallFree := by
  intro op hop
  rcases List.mem_cons.mp hop with rfl | hop
  · exact h
  · simp only [List.mem_cons, List.not_mem_nil, or_false] at hop
    rcases hop with rfl | rfl | rfl | rfl | rfl <;> rfl

theorem callFree_nativeHelper {op : ArrayOp} {a : ArrayClass} {types : TypeRegistry}
    {name : FunctionName} {body : FunctionBody}
    (h : ArrayProfile.nativeHelper op a types = .ok (some (name, body))) : body.CallFree := by
  obtain ⟨native, -, h⟩ := bind_eq_ok.mp h
  obtain ⟨element, -, h⟩ := bind_eq_ok.mp h
  cases op with
  | new =>
    obtain ⟨name, -, h⟩ := bind_eq_ok.mp h
    cases h
    exact callFree_allocation rfl a native
  | newWithDescriptor =>
    obtain ⟨name, -, h⟩ := bind_eq_ok.mp h
    cases h
    exact callFree_allocation rfl a native
  | _ => cases h

theorem callFree_hostHelper {op : ArrayOp} {a : ArrayClass} {types : TypeRegistry}
    {options : Options} {name : FunctionName} {body : FunctionBody}
    (h : ArrayProfile.hostHelper op a types options = .ok (name, body)) : body.CallFree := by
  cases op with
  | new | newWithDescriptor =>
    obtain ⟨element, -, h⟩ := bind_eq_ok.mp h
    obtain ⟨name, -, h⟩ := bind_eq_ok.mp h
    cases h
    trivial
  | _ =>
    obtain ⟨name, -, h⟩ := bind_eq_ok.mp h
    cases h
    trivial

theorem callFree_helper? {op : ArrayOp} {a : ArrayClass} {types : TypeRegistry} {options : Options}
    {name : FunctionName} {body : FunctionBody}
    (h : ArrayProfile.helper? op a types options = .ok (some (name, body))) : body.CallFree := by
  unfold ArrayProfile.helper? at h
  split_ifs at h
  · exact callFree_nativeHelper h
  · obtain ⟨helper, hhelper, hsome⟩ := map_eq_ok.mp h
    cases hsome
    exact callFree_hostHelper hhelper

/-! ### Code of instructions -/

/-- What generating code does to the registry and says of calls. -/
structure CallsKnown (functions functions' : FunctionRegistry)
    (result : Except CompileError (List Emission)) : Prop where
  advances : functions.Advances functions'
  calls : ∀ code, result = .ok code → ∀ e ∈ code, e.CallsBelow functions'.count

theorem callsKnown_error {functions functions' : FunctionRegistry} (e : CompileError)
    (h : functions.Advances functions') : CallsKnown functions functions' (.error e) :=
  ⟨h, fun _ hcode => nomatch hcode⟩

theorem callsKnown_of_unindexed {functions : FunctionRegistry} {ops : List TargetOp}
    (h : Unindexed ops) : CallsKnown functions functions (.ok (ops.map .target)) := by
  refine ⟨.refl _, fun code hcode e he => ?_⟩
  cases hcode
  obtain ⟨op, hop, rfl⟩ := List.mem_map.mp he
  exact isCallFree_of_isUnindexed (h op hop)

theorem callsKnown_arrayCode (op : ArrayOp) (element : OperandType) (array : Nat)
    (options : Options) (types : TypeRegistry) (functions : FunctionRegistry) :
    CallsKnown functions (Instruction.arrayCode op element array options types functions).2
      (Instruction.arrayCode op element array options types functions).1 := by
  unfold Instruction.arrayCode
  split
  · exact callsKnown_error _ (.refl _)
  · next functions' hselect =>
    obtain ⟨a, -, hselect⟩ := bind_eq_ok.mp hselect
    obtain ⟨helper, hhelper, hselect⟩ := bind_eq_ok.mp hselect
    rcases helper with _ | ⟨name, body⟩
    · cases hselect
      refine ⟨.refl _, fun code hcode e he => ?_⟩
      obtain ⟨a, -, hcode⟩ := bind_eq_ok.mp hcode
      obtain ⟨ops, hops, hcode⟩ := bind_eq_ok.mp hcode
      cases hcode
      obtain ⟨o, ho, rfl⟩ := List.mem_map.mp he
      exact callFree_inlineCode hops o ho
    · cases hselect
  · next id functions' hselect =>
    obtain ⟨a, -, hselect⟩ := bind_eq_ok.mp hselect
    obtain ⟨helper, hhelper, hselect⟩ := bind_eq_ok.mp hselect
    rcases helper with _ | ⟨name, body⟩
    · cases hselect
    · cases hselect
      refine ⟨functions.advances_markSynthetic name (callFree_helper? hhelper),
        fun code hcode e he => ?_⟩
      obtain ⟨entry, -, hcode⟩ := bind_eq_ok.mp hcode
      cases hcode
      rcases List.mem_cons.mp he with rfl | he
      · exact functions.insert_lt name _ _
      · obtain ⟨o, ho, rfl⟩ := List.mem_map.mp he
        exact isCallFree_of_isUnindexed (unindexed_hostExtension op element o ho)

theorem callsKnown_stringCode (id : Nat) (options : Options) (functions : FunctionRegistry) :
    CallsKnown functions (Instruction.stringCode id options functions).2
      (Instruction.stringCode id options functions).1 := by
  have hmark := functions.advances_mark (StringPool.accessor options) false
  have hoffset := (functions.mark (StringPool.accessor options) false).2.advances_markSynthetic
    (StringPool.offsetFunction options) (callFree_constantBody 0)
  unfold Instruction.stringCode
  dsimp only
  split_ifs
  · refine ⟨hmark.trans hoffset, fun code hcode e he => ?_⟩
    cases hcode
    simp only [List.mem_cons, List.not_mem_nil, or_false] at he
    rcases he with rfl | rfl
    · rfl
    · exact Nat.lt_of_lt_of_le (functions.insert_lt _ _ _) hoffset.count_le
  · exact callsKnown_error _ (hmark.trans hoffset)

/-- **Generated code calls only functions that have been asked for.** -/
theorem callsKnown_code (i : Instruction) (options : Options) (types : TypeRegistry)
    (functions : FunctionRegistry) :
    CallsKnown functions (i.code options types functions).2
      (i.code options types functions).1 := by
  rcases i with ⟨position, kind⟩
  have hone : ∀ instr : TargetOp, (CodeOp.target instr).isCallFree = true →
      CallsKnown functions functions (.ok [.target instr]) := by
    intro instr hinstr
    refine ⟨.refl _, fun code hcode e he => ?_⟩
    cases hcode
    obtain rfl := List.mem_singleton.mp he
    exact hinstr
  cases kind with
  | const value => exact hone _ (isCallFree_of_isUnindexed (isUnindexed_literal value))
  | convert conversion => exact callsKnown_of_unindexed (unindexed_conversion conversion)
  | localVar op index known => exact hone _ (isCallFree_variableOp op index)
  | loadStore op slot ty resolved =>
    cases resolved with
    | none => exact callsKnown_error _ (.refl _)
    | some index => exact hone _ (isCallFree_variableOp op index)
  | numeric op ty =>
    simp only [Instruction.code]
    cases h : op.code ty with
    | error e => exact callsKnown_error _ (.refl _)
    | ok ops => exact callsKnown_of_unindexed (unindexed_numericOp h)
  | array op element array => exact callsKnown_arrayCode op element array options types functions
  | call name viewedAs =>
    refine ⟨functions.advances_mark name false, fun code hcode e he => ?_⟩
    obtain ⟨ty, -, rfl⟩ := map_eq_ok.mp hcode
    obtain rfl := List.mem_singleton.mp he
    exact functions.insert_lt name _ _
  | stringConst id ty => exact callsKnown_stringCode id options functions
  | control op ty depth =>
    simp only [Instruction.code]
    cases Instruction.controlPops ⟨position, .control op ty depth⟩ op ty with
    | error e => exact callsKnown_error _ (.refl _)
    | ok pops => exact hone _ (isCallFree_controlOp op depth)

theorem callsKnown_emissions (i : Instruction) (options : Options) (types : TypeRegistry)
    (functions : FunctionRegistry) :
    CallsKnown functions (i.emissions options types functions).2
      (i.emissions options types functions).1 := by
  have hcode := callsKnown_code i options types functions
  refine ⟨hcode.advances, fun code hresult => hcode.calls code ?_⟩
  have hresult : (i.code options types functions).1.mapError (CompileError.located i.position) =
      .ok code := hresult
  cases h : (i.code options types functions).1 with
  | error e =>
    rw [h] at hresult
    cases hresult
  | ok code' =>
    rw [h] at hresult
    cases hresult
    rfl

end WasmBackend
