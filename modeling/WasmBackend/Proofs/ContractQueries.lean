import WasmBackend.Proofs.CompiledFunction

/-! # Queries of a contract

The contract of an instruction can be asked for the types that are popped, for their number and for
the type that is pushed, and each query looks at the kind of the instruction for itself. The queries
agree (`popCount_of_popTypes`), and they fail for the same instructions: those whose operator is not
defined on their type (`Undefined`). Such an instruction cannot be written either
(`queries_agree`). -/

namespace WasmBackend

/-- The control operator can have this operand: `DROP` has one, `RETURN` may have one, and no other
operator has any. -/
def ControlOp.admits : ControlOp → Option OperandType → Bool
  | ret, _ => true
  | drop, ty => ty.isSome
  | _, ty => ty.isNone

theorem ModuleWriter.withCurrent_of_current {w : ModuleWriter} {f : FunctionDraft}
    (h : w.current = some f) : w.withCurrent f = w := by
  rcases w with ⟨debugNames, functions, indices, output, data, current⟩ |
    ⟨buffered, functions, importCount, data, current⟩
  · obtain rfl : current = some f := h
    rfl
  · obtain rfl : current = some f := h
    rfl

namespace Instruction

/-- The instruction has an operator that is not defined on its type. -/
def Undefined (i : Instruction) : Prop :=
  match i.kind with
  | .numeric op ty => op.code? ty = none
  | .control op ty _ => op.admits ty = false
  | _ => False

variable {i : Instruction} {slots : SlotTable}

/-! ### Agreement -/

/-- **As many types are popped as are counted.** -/
theorem popCount_of_popTypes {types : List OperandType} (h : i.popTypes slots = .ok types) :
    i.popCount = .ok types.length := by
  obtain ⟨position, kind⟩ := i
  cases kind with
  | const value =>
    cases h
    rfl
  | convert conversion =>
    cases h
    rfl
  | stringConst id ty =>
    cases h
    rfl
  | localVar op index known =>
    cases op with
    | get =>
      cases h
      rfl
    | set | tee =>
      obtain ⟨ty, -, rfl⟩ := map_eq_ok.mp h
      rfl
  | loadStore op slot ty resolved =>
    cases op <;> cases h <;> rfl
  | numeric op ty =>
    obtain ⟨_, hcheck, h⟩ := bind_eq_ok.mp h
    rw [pure_eq_ok] at h
    subst h
    refine bind_eq_ok.mpr ⟨_, hcheck, ?_⟩
    rw [pure_eq_ok]
    split_ifs <;> rfl
  | array op element array =>
    cases op <;> cases h <;> rfl
  | call name viewedAs =>
    cases h
    exact congrArg Except.ok (List.length_map ..).symm
  | control op ty depth => exact map_eq_ok.mpr ⟨types, h, rfl⟩

theorem popTypes?_eq_ok {pops : Option (List OperandType)} (h : i.popTypes? slots = .ok pops) :
    ∃ types, i.popTypes slots = .ok types ∧ (types = [] ↔ pops = none) ∧
      ∀ popped, pops = some popped → types = popped := by
  obtain ⟨types, htypes, rfl⟩ := map_eq_ok.mp h
  refine ⟨types, htypes, ?_⟩
  cases types <;> simp

/-! ### Failure -/

theorem controlPops_eq_ok_iff {op : ControlOp} {ty : Option OperandType} :
    (∃ types, i.controlPops op ty = .ok types) ↔ op.admits ty = true := by
  cases op <;> cases ty <;> simp [controlPops, ControlOp.admits]

theorem exists_controlPops_error {op : ControlOp} {ty : Option OperandType}
    (h : op.admits ty = false) : ∃ e, i.controlPops op ty = .error e := by
  cases hpops : i.controlPops op ty with
  | ok types =>
    rw [controlPops_eq_ok_iff.mp ⟨types, hpops⟩] at h
    cases h
  | error e => exact ⟨e, rfl⟩

/-- **Where an operator is not defined all queries fail**, and with the same error. -/
theorem queries_of_undefined (h : i.Undefined) (slots : SlotTable) :
    ∃ e, i.popCount = .error e ∧ i.pushType slots = .error e ∧ i.popTypes slots = .error e := by
  obtain ⟨position, kind⟩ := i
  cases kind with
  | numeric op ty =>
    have hcheck : checkNumeric ⟨position, .numeric op ty⟩ op ty =
        .error (.unknownOperator (ty.name ++ "." ++ op.name) .numeric (some position)) := by
      unfold checkNumeric
      rw [show op.code? ty = none from h]
    exact ⟨_, by simp only [popCount, hcheck]; rfl, by simp only [pushType, hcheck]; rfl,
      by simp only [popTypes, hcheck]; rfl⟩
  | control op ty depth =>
    obtain ⟨e, he⟩ := exists_controlPops_error (i := ⟨position, .control op ty depth⟩) h
    exact ⟨e, by simp only [popCount, he, Except.map], by simp only [pushType, he, Except.map], he⟩
  | _ => exact h.elim

/-- The number of popped values is known unless an operator is not defined. -/
theorem undefined_of_popCount {e : CompileError} (h : i.popCount = .error e) : i.Undefined := by
  obtain ⟨position, kind⟩ := i
  cases kind with
  | numeric op ty =>
    cases hcode : op.code? ty with
    | none => exact hcode
    | some ops =>
      have hcheck : checkNumeric ⟨position, .numeric op ty⟩ op ty = .ok () := by
        unfold checkNumeric
        rw [hcode]
      simp only [popCount, hcheck] at h
      cases h
  | control op ty depth =>
    show op.admits ty = false
    rw [← Bool.not_eq_true, ← controlPops_eq_ok_iff (i := ⟨position, .control op ty depth⟩)]
    rintro ⟨types, htypes⟩
    simp only [popCount, htypes] at h
    cases h
  | localVar op index known => cases op <;> cases h
  | loadStore op slot ty resolved => cases op <;> cases h
  | array op element array => cases op <;> cases h
  | _ => cases h

theorem popCount_eq_error_iff : (∃ e, i.popCount = .error e) ↔ i.Undefined := by
  constructor
  · rintro ⟨e, he⟩
    exact undefined_of_popCount he
  · intro h
    obtain ⟨e, he, -, -⟩ := queries_of_undefined h {}
    exact ⟨e, he⟩

/-! ### Writing -/

section Writing

variable (options : Options) (types : TypeRegistry) (functions : FunctionRegistry)

theorem code_of_undefined (h : i.Undefined) :
    ∃ e, i.code options types functions = (.error e, functions) := by
  obtain ⟨position, kind⟩ := i
  cases kind with
  | numeric op ty =>
    refine ⟨.ofFault (.noNumericCode op ty), ?_⟩
    simp only [code, NumericOp.code, show op.code? ty = none from h, Except.map]
  | control op ty depth =>
    obtain ⟨e, he⟩ := exists_controlPops_error (i := ⟨position, .control op ty depth⟩) h
    exact ⟨e, by simp only [code, he, Except.map]⟩
  | _ => exact h.elim

theorem write_of_undefined (h : i.Undefined) (w : ModuleWriter) :
    ∃ e, w.write i options types functions = ⟨.error e, w, functions⟩ := by
  obtain ⟨e, he⟩ := code_of_undefined options types functions h
  refine ⟨e.located i.position, ?_⟩
  rw [ModuleWriter.write, emissions, he]
  rfl

theorem write_numeric {position : CodePosition} {op : NumericOp} {ty : ValueType}
    {ops : List TargetOp} (h : op.code? ty = some ops) (w : ModuleWriter) (f : FunctionDraft) :
    (w.withCurrent f).write ⟨position, .numeric op ty⟩ options types functions =
      ⟨.ok (), w.withCurrent (f.extend (ops.map .target)), functions⟩ := by
  refine ModuleWriter.write_of_code w f ?_
  simp only [code, NumericOp.code, h, Except.map]

end Writing

/-- **The queries of a contract agree and fail together.** If the popped types are known, their
number is counted, and there are none exactly if it is zero. The count fails exactly if the operator
of the instruction is not defined on its type; then all queries fail, with one error, and the
instruction cannot be written, which leaves the module and the functions as they are. A numeric
operator that is defined on its type is written into every open function. -/
theorem queries_agree (i : Instruction) (slots : SlotTable) {w : ModuleWriter} {f : FunctionDraft}
    (hopen : w.current = some f) (options : Options) (types : TypeRegistry)
    (functions : FunctionRegistry) :
    (∀ pops, i.popTypes? slots = .ok pops → ∃ n, i.popCount = .ok n ∧ (n = 0 ↔ pops = none) ∧
      ∀ popped, pops = some popped → popped.length = n) ∧
    ((∃ e, i.popCount = .error e) ↔ i.Undefined) ∧
    (∀ e, i.popCount = .error e → i.pushType slots = .error e ∧ i.popTypes? slots = .error e ∧
      ∃ e', w.write i options types functions = ⟨.error e', w, functions⟩) ∧
    ∀ op ty ops, i.kind = .numeric op ty → op.code? ty = some ops →
      w.write i options types functions =
        ⟨.ok (), w.withCurrent (f.extend (ops.map .target)), functions⟩ := by
  refine ⟨fun pops hpops => ?_, popCount_eq_error_iff, fun e he => ?_, ?_⟩
  · obtain ⟨popped, hpopped, hnone, hsome⟩ := popTypes?_eq_ok hpops
    refine ⟨popped.length, popCount_of_popTypes hpopped, ?_, fun popped' h => ?_⟩
    · rw [List.length_eq_zero_iff, hnone]
    · rw [hsome popped' h]
  · have hundefined := undefined_of_popCount he
    obtain ⟨e', hcount, hpush, hpop⟩ := queries_of_undefined hundefined slots
    cases he.symm.trans hcount
    refine ⟨hpush, ?_, write_of_undefined options types functions hundefined w⟩
    rw [popTypes?, hpop]
    rfl
  · obtain ⟨position, kind⟩ := i
    rintro op ty ops rfl hcode
    rw [← ModuleWriter.withCurrent_of_current hopen, ModuleWriter.withCurrent_withCurrent]
    exact write_numeric options types functions hcode w f

/-- A function of which nothing has been written. -/
def started : FunctionDraft where
  id := 0
  name := "run"
  params := []
  result := none
  locals := []

/-- There is no remainder of floats. The negation of a long takes one value, and is written as a
product. -/
theorem queries_agree_negation :
    let w := ModuleWriter.newBinary.withCurrent started
    let remainder : Instruction := ⟨.unknown, .numeric .rem .f32⟩
    let negation : Instruction := ⟨.unknown, .numeric .neg .i64⟩
    w.current = some started ∧
    (∃ e e', remainder.popCount = .error e ∧ remainder.pushType {} = .error e ∧
      remainder.popTypes? {} = .error e ∧
      w.write remainder {} (.new true) {} = ⟨.error e', w, {}⟩) ∧
    negation.popTypes? {} = .ok (some [.value .i64]) ∧ negation.popCount = .ok 1 ∧
    w.write negation {} (.new true) {} =
      ⟨.ok (), w.withCurrent (started.extend [.target (.i64Const (-1)), .target (.plain .i64Mul)]),
        {}⟩ := by
  intro w remainder negation
  have hopen : w.current = some started := rfl
  obtain ⟨-, hundefined, hfail, -⟩ := queries_agree remainder {} hopen {} (.new true) {}
  obtain ⟨hcount, -, -, hwrite⟩ := queries_agree negation {} hopen {} (.new true) {}
  obtain ⟨e, he⟩ := hundefined.mpr rfl
  obtain ⟨hpush, hpop, e', hwritten⟩ := hfail e he
  obtain ⟨n, hn, -, hlength⟩ := hcount (some [.value .i64]) rfl
  refine ⟨hopen, ⟨e, e', he, hpush, hpop, hwritten⟩, rfl, ?_, hwrite .neg .i64 _ rfl rfl⟩
  rw [hn, ← hlength _ rfl]
  rfl

end Instruction

end WasmBackend
