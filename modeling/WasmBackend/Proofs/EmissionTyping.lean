import WasmBackend.Proofs.ArrayTyping
import WasmBackend.Proofs.FunctionRegistry
import WasmBackend.Proofs.SlotTable

/-! # Generated code has the type of its instruction

The *contract* of an instruction in target types is what its pop and push types are lowered to. An
instruction outside structured control that has a contract has code, and on every stack the code
replaces the operands of the contract by its result (`emissions_hasType`). -/

namespace WasmBackend.Typing

/-! ### Operators -/

section Operators

variable {env : Env}

theorem hasType_literal (v : Literal) : HasType env [.target v.code] [] [.value v.type] := by
  cases v <;> exact hasType_singleton fun _ => rfl

theorem hasType_conversion (c : Conversion) :
    HasType env (c.code.map .target) [.value c.popType] [.value c.pushType] := by
  intro s
  cases c <;> rfl

theorem hasType_numericOp {op : NumericOp} {ty : ValueType} {ops : List TargetOp}
    (h : op.code? ty = some ops) :
    HasType env (ops.map .target) (if op.isUnary then [.value ty] else [.value ty, .value ty])
      [.value (if op.isComparison then .i32 else ty)] := by
  intro s
  cases ty with
  | i32 => cases h; cases op <;> rfl
  | i64 => cases h; cases op <;> rfl
  | f32 =>
    obtain ⟨o, ho, rfl⟩ := Option.map_eq_some_iff.mp h
    cases op <;> cases ho <;> rfl
  | f64 =>
    obtain ⟨o, ho, rfl⟩ := Option.map_eq_some_iff.mp h
    cases op <;> cases ho <;> rfl
  | _ => cases h

/-- What an access to a local of a type takes and gives. -/
def variableType (op : VariableOp) (w : WasmType) : Signature :=
  match op with
  | .get => ⟨[], [w]⟩
  | .set => ⟨[w], []⟩
  | .tee => ⟨[w], [w]⟩

theorem hasType_variableOp {index : Nat} {w : WasmType} (h : env.localType? index = some w)
    (op : VariableOp) :
    HasType env [.target (op.code index)] (variableType op w).params
      (variableType op w).results := by
  refine hasType_singleton fun _ => ?_
  show env.indexedType? op.opcode index = some (variableType op w)
  cases op <;> simp [VariableOp.opcode, Env.indexedType?, h, variableType]

theorem hasType_call {name : FunctionName} {params results : List WasmType}
    (h : HasSignature env.types (env.callee name) ⟨params, results⟩) (callee : Nat)
    (viewedAs : Option WasmType) :
    HasType env [.call name callee viewedAs] params results := by
  obtain ⟨result, hparams, hresult, hresults⟩ := h
  dsimp only at hparams hresults
  refine hasType_singleton fun _ => ?_
  show env.callType? (env.callee name) = _
  rw [hresults]
  simp [Env.callType?, hparams, hresult, bind, Except.bind, pure, Except.pure, Except.toOption]

end Operators

/-! ### Contracts -/

/-- The contract of an instruction in target types. -/
def contract (types : TypeRegistry) (slots : SlotTable) (i : Instruction) :
    Except CompileError Signature := do
  let params ← types.lowerAll (← i.popTypes slots)
  let result ← types.lowerResult (← i.pushType slots)
  return ⟨params, result.toList⟩

theorem contract_eq_ok {types : TypeRegistry} {slots : SlotTable} {i : Instruction}
    {sig : Signature} (h : contract types slots i = .ok sig) :
    ∃ pops pushed params result, i.popTypes slots = .ok pops ∧ i.pushType slots = .ok pushed ∧
      types.lowerAll pops = .ok params ∧ types.lowerResult pushed = .ok result ∧
      sig = ⟨params, result.toList⟩ := by
  simp only [contract, bind_eq_ok, pure_eq_ok] at h
  obtain ⟨pops, hpops, params, hparams, pushed, hpushed, result, hresult, rfl⟩ := h
  exact ⟨pops, pushed, params, result, hpops, hpushed, hparams, hresult, rfl⟩

/-! ### Instructions -/

/-- The function that types a call in the code of an instruction: the helper of an array operation,
and any other function itself. -/
def callee (options : Options) (types : TypeRegistry) (i : Instruction) (written : FunctionName) :
    FunctionName :=
  match i.kind with
  | .array op _ array =>
    match (do ArrayProfile.helper? op (← types.arrayClass array) types options) with
    | .ok (some (helper, _)) => helper
    | _ => written
  | _ => written

/-- What the code of an instruction is typed in. -/
def envOf (options : Options) (types : TypeRegistry) (slots : SlotTable) (i : Instruction) : Env :=
  { types, slots, callee := callee options types i }

/-- Instructions outside structured control as they are built. A slot access has been resolved by
the table of its function, which may have grown since; an array class is the one of the element
type; and a call does not replace the result of its callee. -/
inductive Fresh (options : Options) (types : TypeRegistry) (slots : SlotTable) : Instruction → Prop
  | const (position : CodePosition) (value : Literal) :
      Fresh options types slots ⟨position, .const value⟩
  | convert (position : CodePosition) (conversion : Conversion) :
      Fresh options types slots ⟨position, .convert conversion⟩
  | localVar (position : CodePosition) (op : VariableOp) (index : Nat) :
      Fresh options types slots (.ofLocal op index position)
  | loadStore {t t' : SlotTable} {i : Instruction} (position : CodePosition) (op : VariableOp)
      (slot : Nat) (ty : OperandType) : SlotTable.Grows {} t →
      (Instruction.ofSlot op slot ty position).resolve t = (i, t') → t'.Grows slots →
      Fresh options types slots i
  | numeric (position : CodePosition) (op : NumericOp) (ty : ValueType) :
      Fresh options types slots ⟨position, .numeric op ty⟩
  | array (position : CodePosition) (op : ArrayOp) {element : OperandType} {array : Nat} :
      types.arrayOf? element = some array → (options.useGc = false → isGeneric element = false) →
      Fresh options types slots ⟨position, .array op element array⟩
  | call (position : CodePosition) (name : FunctionName) :
      Fresh options types slots ⟨position, .call name none⟩
  | stringConst (position : CodePosition) {id : Nat} : id < 0x80000000 →
      Fresh options types slots ⟨position, .stringConst id TypeRegistry.stringType⟩
  | drop (position : CodePosition) (ty : Option OperandType) (depth : Nat) :
      Fresh options types slots ⟨position, .control .drop ty depth⟩
  | brIf (position : CodePosition) (ty : Option OperandType) (depth : Nat) :
      Fresh options types slots ⟨position, .control .brIf ty depth⟩

section Contracts

variable {types : TypeRegistry} {slots : SlotTable} {sig : Signature}

/-- An access to a local of a type has the contract of its operator. -/
theorem contract_variable {i : Instruction} {op : VariableOp} {ty : OperandType}
    (h : contract types slots i = .ok sig)
    (hpops : i.popTypes slots = .ok (if op = .get then [] else [ty]))
    (hpushed : i.pushType slots = .ok (if op = .set then none else some ty)) :
    ∃ w, types.lower ty = .ok w ∧ sig = variableType op w := by
  obtain ⟨pops, pushed, params, result, hpops', hpushed', hparams, hresult, rfl⟩ :=
    contract_eq_ok h
  cases hpops.symm.trans hpops'
  cases hpushed.symm.trans hpushed'
  cases op with
  | get =>
    obtain ⟨w, hw, rfl⟩ := lowerResult_some_eq_ok.mp hresult
    cases hparams
    exact ⟨w, hw, rfl⟩
  | set =>
    obtain ⟨w, ws, hw, hws, rfl⟩ := lowerAll_cons_eq_ok.mp hparams
    cases hresult
    cases hws
    exact ⟨w, hw, rfl⟩
  | tee =>
    obtain ⟨w, ws, hw, hws, rfl⟩ := lowerAll_cons_eq_ok.mp hparams
    obtain ⟨w', hw', rfl⟩ := lowerResult_some_eq_ok.mp hresult
    cases hws
    cases hw.symm.trans hw'
    exact ⟨w, hw, rfl⟩

theorem contract_loadStore {position : CodePosition} {op : VariableOp} {slot : Nat}
    {ty : OperandType} {resolved : Option Nat}
    (h : contract types slots ⟨position, .loadStore op slot ty resolved⟩ = .ok sig) :
    ∃ w, types.lower ty.widened = .ok w ∧ sig = variableType op w :=
  contract_variable h (by cases op <;> rfl) (by cases op <;> rfl)

theorem contract_localVar {position : CodePosition} {op : VariableOp} {index : Nat}
    (h : contract types slots (.ofLocal op index position) = .ok sig) :
    ∃ ty w, slots.typeOf index = .ok ty ∧ types.lower ty = .ok w ∧ sig = variableType op w := by
  obtain ⟨ty, hty⟩ : ∃ ty, slots.typeOf index = .ok ty := by
    obtain ⟨pops, pushed, -, -, hpops, hpushed, -, -, -⟩ := contract_eq_ok h
    cases op with
    | get =>
      obtain ⟨ty, hty, -⟩ := map_eq_ok.mp hpushed
      exact ⟨ty, hty⟩
    | set | tee =>
      obtain ⟨ty, hty, -⟩ := map_eq_ok.mp hpops
      exact ⟨ty, hty⟩
  have hpops : (Instruction.ofLocal op index position).popTypes slots =
      .ok (if op = .get then [] else [ty]) := by
    cases op <;> simp [Instruction.popTypes, Instruction.ofLocal, Instruction.localType, hty,
      Except.map]
  have hpushed : (Instruction.ofLocal op index position).pushType slots =
      .ok (if op = .set then none else some ty) := by
    cases op <;> simp [Instruction.pushType, Instruction.ofLocal, Instruction.localType, hty,
      Except.map]
  obtain ⟨w, hw, hsig⟩ := contract_variable h hpops hpushed
  exact ⟨ty, w, hty, hw, hsig⟩

theorem contract_numeric {position : CodePosition} {op : NumericOp} {ty : ValueType}
    (h : contract types slots ⟨position, .numeric op ty⟩ = .ok sig) :
    ∃ ops, op.code? ty = some ops ∧
      sig = ⟨if op.isUnary then [.value ty] else [.value ty, .value ty],
        [.value (if op.isComparison then .i32 else ty)]⟩ := by
  obtain ⟨pops, pushed, params, result, hpops, hpushed, hparams, hresult, rfl⟩ := contract_eq_ok h
  obtain ⟨⟨⟩, hcheck, hpops⟩ := bind_eq_ok.mp hpops
  obtain ⟨⟨⟩, -, hpushed⟩ := bind_eq_ok.mp hpushed
  obtain ⟨ops, hops⟩ : ∃ ops, op.code? ty = some ops := by
    unfold Instruction.checkNumeric at hcheck
    split at hcheck
    · next ops hops => exact ⟨ops, hops⟩
    · cases hcheck
  have hty : ty.widened = ty := by
    cases ty with
    | i32 | i64 | f32 | f64 => rfl
    | _ => cases hops
  refine ⟨ops, hops, ?_⟩
  rw [pure_eq_ok] at hpops hpushed
  subst hpops hpushed
  have hlower : types.lower (.value ty) = .ok (.value ty) := by
    rw [TypeRegistry.lower, hty]
  have hparams' : types.lowerAll (if op.isUnary then [.value ty] else [.value ty, .value ty]) =
      .ok (if op.isUnary then [.value ty] else [.value ty, .value ty]) := by
    have hone : types.lowerAll [.value ty] = .ok [.value ty] :=
      lowerAll_cons_eq_ok.mpr ⟨_, _, hlower, rfl, rfl⟩
    split_ifs
    · exact hone
    · exact lowerAll_cons_eq_ok.mpr ⟨_, _, hlower, hone, rfl⟩
  have hresult' : types.lowerResult (if op.isComparison then some .i32 else some (.value ty)) =
      .ok (some (.value (if op.isComparison then .i32 else ty))) := by
    split_ifs
    · rfl
    · exact lowerResult_some_eq_ok.mpr ⟨_, hlower, rfl⟩
  cases hparams'.symm.trans hparams
  cases hresult'.symm.trans hresult
  rfl

theorem contract_array {element : OperandType} {array : Nat} {reference w : WasmType}
    (href : types.lower (.array array) = .ok reference) (hw : types.lower element = .ok w)
    (slots : SlotTable) (position : CodePosition) (op : ArrayOp) :
    contract types slots ⟨position, .array op element array⟩ = .ok (arrayType op reference w) := by
  have hw' : types.lower element.widened = .ok w := (types.lower_widened element).trans hw
  have hi32 : types.lower .i32 = .ok (.value .i32) := rfl
  cases op <;>
    simp [contract, Instruction.popTypes, Instruction.pushType, TypeRegistry.lowerAll,
      TypeRegistry.lowerResult, arrayType, href, hw, hw', hi32, bind, Except.bind, pure, Except.pure,
      Except.map]

theorem contract_call {position : CodePosition} {name : FunctionName}
    (h : contract types slots ⟨position, .call name none⟩ = .ok sig) :
    HasSignature types name sig := by
  obtain ⟨pops, pushed, params, result, hpops, hpushed, hparams, hresult, rfl⟩ := contract_eq_ok h
  cases hpops
  rw [lowerAll_map_widened] at hparams
  have hpushed' : pushed = name.result := by
    cases hpushed
    rfl
  exact ⟨result, hparams, hpushed' ▸ hresult, rfl⟩

theorem contract_stringConst (options : Options) {position : CodePosition} {id : Nat}
    (h : contract types slots ⟨position, .stringConst id TypeRegistry.stringType⟩ = .ok sig) :
    sig.params = [] ∧
      HasSignature types (StringPool.accessor options) ⟨[.value .i32], sig.results⟩ := by
  obtain ⟨pops, pushed, params, result, hpops, hpushed, hparams, hresult, rfl⟩ := contract_eq_ok h
  cases hpops
  cases hpushed
  cases hparams
  exact ⟨rfl, result, rfl, hresult, rfl⟩

theorem contract_drop {position : CodePosition} {ty : Option OperandType} {depth : Nat}
    (h : contract types slots ⟨position, .control .drop ty depth⟩ = .ok sig) :
    ∃ w, sig = ⟨[w], []⟩ := by
  obtain ⟨pops, pushed, params, result, hpops, hpushed, hparams, hresult, rfl⟩ := contract_eq_ok h
  obtain ⟨_, -, rfl⟩ := map_eq_ok.mp hpushed
  cases hresult
  rcases ty with _ | ty
  · cases hpops
  · cases hpops
    obtain ⟨w, ws, -, hws, rfl⟩ := lowerAll_cons_eq_ok.mp hparams
    cases hws
    exact ⟨w, rfl⟩

theorem contract_brIf {position : CodePosition} {ty : Option OperandType} {depth : Nat}
    (h : contract types slots ⟨position, .control .brIf ty depth⟩ = .ok sig) :
    sig = ⟨[.value .i32], []⟩ := by
  obtain ⟨pops, pushed, params, result, hpops, hpushed, hparams, hresult, rfl⟩ := contract_eq_ok h
  obtain ⟨_, -, rfl⟩ := map_eq_ok.mp hpushed
  cases hresult
  rcases ty with _ | ty
  · cases hpops
    cases hparams
    rfl
  · cases hpops

end Contracts

section Code

variable {options : Options} {types : TypeRegistry} {slots : SlotTable} {sig : Signature}

theorem emissions_of_code {i : Instruction} {functions functions' : FunctionRegistry}
    {code : List Emission} (h : i.code options types functions = (.ok code, functions')) :
    i.emissions options types functions = (.ok code, functions') := by
  unfold Instruction.emissions
  rw [h]
  rfl

theorem code_control {position : CodePosition} {op : ControlOp} {ty : Option OperandType}
    {depth : Nat} (h : contract types slots ⟨position, .control op ty depth⟩ = .ok sig)
    (functions : FunctionRegistry) :
    Instruction.code ⟨position, .control op ty depth⟩ options types functions =
      (.ok [.target (op.code depth)], functions) := by
  obtain ⟨pops, -, -, -, hpops, -⟩ := contract_eq_ok h
  have hpops' : Instruction.controlPops ⟨position, .control op ty depth⟩ op ty = .ok pops := hpops
  simp [Instruction.code, hpops', Except.map]

theorem stringCode_eq {id : Nat} (hid : id < 0x80000000) (functions : FunctionRegistry) :
    ∃ callee functions', Instruction.stringCode id options functions =
      (.ok [.target (.i32Const (Int32.ofNat id)), .call (StringPool.accessor options) callee none],
        functions') := by
  simp [Instruction.stringCode, hid]

theorem useGc_of_grows (h : (TypeRegistry.new options.useGc).Grows types) :
    types.useGc = options.useGc :=
  h.extends.useGc

theorem localType?_eq {env : Env} {index : Nat} {ty : OperandType} {w : WasmType}
    (hty : env.slots.typeOf index = .ok ty) (hw : env.types.lower ty = .ok w) :
    env.localType? index = some w := by
  simp [Env.localType?, hty, hw, bind, Except.bind, Except.toOption]

theorem callee_array {position : CodePosition} {op : ArrayOp} {element : OperandType} {array : Nat}
    {a : ArrayClass} {helper : FunctionName} {body : FunctionBody}
    (ha : types.arrayClass array = .ok a)
    (hhelper : ArrayProfile.helper? op a types options = .ok (some (helper, body)))
    (written : FunctionName) :
    callee options types ⟨position, .array op element array⟩ written = helper := by
  simp [callee, ha, hhelper, bind, Except.bind]

theorem arrayCode_helper {op : ArrayOp} {array : Nat} {a : ArrayClass} {helper : FunctionName}
    {body : FunctionBody} (ha : types.arrayClass array = .ok a)
    (hhelper : ArrayProfile.helper? op a types options = .ok (some (helper, body)))
    (element : OperandType) (functions : FunctionRegistry) :
    ∃ name id functions', Instruction.arrayCode op element array options types functions =
      (.ok (.call name id none :: (op.hostExtension element).map .target), functions') := by
  obtain ⟨e, he⟩ := functions.entry_markSynthetic helper body
  have hselect : ArrayProfile.select op array options types functions =
      .ok (some (functions.markSynthetic helper body).1, (functions.markSynthetic helper body).2) :=
    bind_eq_ok.mpr ⟨a, ha, bind_eq_ok.mpr ⟨_, hhelper, rfl⟩⟩
  refine ⟨e.name, (functions.markSynthetic helper body).1, (functions.markSynthetic helper body).2,
    ?_⟩
  simp [Instruction.arrayCode, hselect, he, bind, Except.bind, pure, Except.pure]

theorem arrayCode_inline {op : ArrayOp} {array : Nat} {a : ArrayClass} {ops : List CodeOp}
    (ha : types.arrayClass array = .ok a)
    (hhelper : ArrayProfile.helper? op a types options = .ok none)
    (hops : op.inlineCode a = .ok ops) (element : OperandType) (functions : FunctionRegistry) :
    Instruction.arrayCode op element array options types functions =
      (.ok (ops.map .op), functions) := by
  have hselect : ArrayProfile.select op array options types functions = .ok (none, functions) :=
    bind_eq_ok.mpr ⟨a, ha, bind_eq_ok.mpr ⟨_, hhelper, rfl⟩⟩
  simp [Instruction.arrayCode, hselect, ha, hops, bind, Except.bind, pure, Except.pure]

/-- The code of an array operation, inline or a call of its helper. -/
theorem hasType_array {position : CodePosition} {op : ArrayOp} {element : OperandType} {array : Nat}
    (htypes : (TypeRegistry.new options.useGc).Grows types)
    (harray : types.arrayOf? element = some array)
    (hne : options.useGc = false → isGeneric element = false)
    (hsig : contract types slots ⟨position, .array op element array⟩ = .ok sig)
    (functions : FunctionRegistry) :
    ∃ code functions', Instruction.arrayCode op element array options types functions =
        (.ok code, functions') ∧
      HasType (envOf options types slots ⟨position, .array op element array⟩) code sig.params
        sig.results := by
  have ht := TypeRegistry.wellFormed_of_grows htypes
  have hgc := useGc_of_grows htypes
  obtain ⟨a, ha, hmem, rfl, rfl⟩ := TypeRegistry.arrayClass_of_arrayOf? ht harray
  have hw := ht.elementLocal a hmem
  cases (contract_array (lower_operandType ha) hw slots position op).symm.trans hsig
  rcases helper?_cases ht hmem ha hgc hne op with
    ⟨name, body, hhelper, hname⟩ | ⟨hhelper, hop, hnative⟩
  · obtain ⟨written, id, functions', hcode⟩ := arrayCode_helper ha hhelper a.element functions
    refine ⟨_, functions', hcode, ?_⟩
    have hcall : HasSignature types
        ((envOf options types slots ⟨position, .array op a.element a.id⟩).callee written)
        (arrayType op (types.classReference a.typeIndex) a.elementLocal) := by
      show HasSignature types (callee ..) _
      rw [callee_array ha hhelper]
      exact hname
    exact (hasType_call hcall id none).cons (hasType_hostExtension hw op _)
  · obtain ⟨native, hn⟩ := Option.isSome_iff_exists.mp ((ht.native_isSome a hmem).trans hnative)
    have href : types.classReference a.typeIndex = .ref a.typeIndex := by
      simp [TypeRegistry.classReference, hnative]
    have hinline : ∃ ops, op.inlineCode a = .ok ops ∧
        HasType (envOf options types slots ⟨position, .array op a.element a.id⟩) (ops.map .op)
          (arrayType op (.ref a.typeIndex) a.elementLocal).params
          (arrayType op (.ref a.typeIndex) a.elementLocal).results :=
      hasType_inlineCode ht hmem hn hop
    obtain ⟨ops, hops, htyped⟩ := hinline
    rw [href]
    exact ⟨_, functions, arrayCode_inline ha hhelper hops a.element functions, htyped⟩

/-- **Generated code has the type of its instruction.** On every stack the operands of the contract
are replaced by its result. -/
theorem emissions_hasType {i : Instruction} (htypes : (TypeRegistry.new options.useGc).Grows types)
    (hi : Fresh options types slots i) (hsig : contract types slots i = .ok sig)
    (functions : FunctionRegistry) :
    ∃ code functions', i.emissions options types functions = (.ok code, functions') ∧
      HasType (envOf options types slots i) code sig.params sig.results := by
  suffices h : ∃ code functions', i.code options types functions = (.ok code, functions') ∧
      HasType (envOf options types slots i) code sig.params sig.results by
    obtain ⟨code, functions', hcode, htyped⟩ := h
    exact ⟨code, functions', emissions_of_code hcode, htyped⟩
  cases hi with
  | const position value =>
    have hcontract : contract types slots ⟨position, .const value⟩ =
        .ok ⟨[], [.value value.type]⟩ := by
      cases value <;> rfl
    cases hcontract.symm.trans hsig
    exact ⟨_, _, rfl, hasType_literal value⟩
  | convert position conversion =>
    have hcontract : contract types slots ⟨position, .convert conversion⟩ =
        .ok ⟨[.value conversion.popType], [.value conversion.pushType]⟩ := by
      cases conversion <;> rfl
    cases hcontract.symm.trans hsig
    exact ⟨_, _, rfl, hasType_conversion conversion⟩
  | localVar position op index =>
    obtain ⟨ty, w, hty, hw, rfl⟩ := contract_localVar hsig
    exact ⟨_, _, rfl, hasType_variableOp (localType?_eq hty hw) op⟩
  | loadStore position op slot ty hgrows hres hlater =>
    cases hres
    obtain ⟨w, hw, rfl⟩ := contract_loadStore hsig
    have hty := hlater.typeOf (SlotTable.typeOf_resolve hgrows rfl)
    exact ⟨_, _, rfl, hasType_variableOp (localType?_eq hty hw) op⟩
  | numeric position op ty =>
    obtain ⟨ops, hops, rfl⟩ := contract_numeric hsig
    refine ⟨ops.map .target, functions, ?_, hasType_numericOp hops⟩
    simp [Instruction.code, NumericOp.code, hops, Except.map]
  | array position op harray hne => exact hasType_array htypes harray hne hsig functions
  | call position name =>
    exact ⟨_, _, rfl, hasType_call (contract_call hsig) _ _⟩
  | stringConst position hid =>
    obtain ⟨hparams, haccessor⟩ := contract_stringConst options hsig
    obtain ⟨id', functions', hcode⟩ := stringCode_eq hid functions
    refine ⟨_, functions', hcode, ?_⟩
    rw [hparams]
    exact (hasType_literal (.i32 _)).cons (hasType_call haccessor id' none)
  | drop position ty depth =>
    obtain ⟨w, rfl⟩ := contract_drop hsig
    exact ⟨_, functions, code_control hsig functions, hasType_singleton fun _ => rfl⟩
  | brIf position ty depth =>
    cases contract_brIf hsig
    exact ⟨_, functions, code_control hsig functions, hasType_singleton fun _ => rfl⟩

end Code

/-- The registry of a module with native types and one array class, of bytes. -/
def byteArrays : TypeRegistry :=
  (TypeRegistry.new true).addArray (.value .i8) "[B" (.value .i32) (.value .i8)

/-- A byte is written into an array as a 32-bit integer. -/
theorem emissions_hasType_storeByte :
    (TypeRegistry.new true).Grows byteArrays ∧
      ∃ code functions, Instruction.emissions ⟨.unknown, .array .set (.value .i8) 0⟩
          { useGc := true } byteArrays {} = (.ok code, functions) ∧
        HasType (envOf { useGc := true } byteArrays {} ⟨.unknown, .array .set (.value .i8) 0⟩) code
          [.ref 2, .value .i32, .value .i32] [] := by
  have hadded : (TypeRegistry.new true).internArray (.value .i8) = (.ok 0, byteArrays) := rfl
  have hgrows : (TypeRegistry.new true).Grows byteArrays := .internArray .refl hadded
  have hcontract : contract byteArrays {} ⟨.unknown, .array .set (.value .i8) 0⟩ =
      .ok ⟨[.ref 2, .value .i32, .value .i32], []⟩ := rfl
  exact ⟨hgrows, emissions_hasType hgrows (.array .unknown .set rfl fun _ => rfl) hcontract {}⟩

end WasmBackend.Typing
