import WasmBackend.Proofs.CompiledFunction
import WasmBackend.Proofs.SlotTable
import WasmBackend.Proofs.VerifierSteps

/-! # Compiling a function again

The instructions of a function that has been compiled remember their locals and the types of those.
When the function is compiled again, its slot accesses need no local any more, so the second slot
table holds nothing but the parameters. What was remembered is enough to verify the function and to
write the same code, but the locals that the code uses are not declared (`compile_again`). A function
is compiled to the same draft exactly if every slot it accesses was the slot of a parameter. -/

namespace WasmBackend

/-! ### Locals of a compiled function -/

namespace SlotTable

theorem size_addParamsFrom {t t' : SlotTable} {slot : Nat} {params : List OperandType}
    (ht : t.size = t.paramCount) (h : t.addParamsFrom slot params = .ok t') :
    t'.size = t'.paramCount := by
  induction params generalizing t slot with
  | nil =>
    cases h
    exact ht
  | cons ty rest ih =>
    unfold addParamsFrom at h
    split at h
    · next index next hnext =>
      refine ih ?_ h
      rw [addParam_eq_ok hnext]
      show (t.allocate slot ty.widened).size = t.paramCount + 1
      rw [size_allocate, ht]
    · cases h

theorem size_ofParams {params : List OperandType} {t : SlotTable} (h : ofParams params = .ok t) :
    t.size = t.paramCount :=
  size_addParamsFrom rfl h

theorem length_localTypes (t : SlotTable) : t.localTypes.length = t.size - t.paramCount :=
  List.length_drop

theorem localTypes_ofParams {params : List OperandType} {t : SlotTable}
    (h : ofParams params = .ok t) : t.localTypes = [] := by
  have hlength := t.length_localTypes
  rw [size_ofParams h, Nat.sub_self] at hlength
  exact List.length_eq_zero_iff.mp hlength

end SlotTable

namespace Instruction

/-- A slot access whose local is not determined yet is one of a slot that the table knows. -/
def FindsSlot (t : SlotTable) (i : Instruction) : Prop :=
  ∀ op slot ty, i.kind = .loadStore op slot ty none → (t.find? slot ty.widened).isSome = true

/-- The local of a slot access is determined. -/
def IsResolved (i : Instruction) : Prop :=
  ∀ op slot ty, i.kind ≠ .loadStore op slot ty none

theorem resolve_of_isResolved {i : Instruction} (h : i.IsResolved) (t : SlotTable) :
    i.resolve t = (i, t) := by
  unfold resolve
  split
  · next op slot ty hkind => exact absurd hkind (h op slot ty)
  · rfl

theorem resolveAll_of_isResolved {body : List Instruction} (h : ∀ i ∈ body, i.IsResolved)
    (t : SlotTable) : resolveAll body t = (body, t) := by
  induction body with
  | nil => rfl
  | cons i rest ih =>
    have hrest := ih fun i' hi' => h i' (List.mem_cons_of_mem _ hi')
    simp only [resolveAll, resolve_of_isResolved (h i List.mem_cons_self), hrest]

theorem isResolved_resolve (i : Instruction) (t : SlotTable) : (i.resolve t).1.IsResolved := by
  unfold resolve
  split
  · intro op slot ty hkind
    cases hkind
  · next hother => exact fun op slot ty hkind => hother op slot ty hkind

theorem isResolved_resolveAll {body : List Instruction} {t : SlotTable} {i : Instruction}
    (h : i ∈ (resolveAll body t).1) : i.IsResolved := by
  induction body generalizing t with
  | nil => cases h
  | cons head rest ih =>
    simp only [resolveAll] at h
    rcases List.mem_cons.mp h with rfl | hrest
    · exact isResolved_resolve head t
    · exact ih hrest

theorem size_resolve (i : Instruction) (t : SlotTable) :
    (i.FindsSlot t ∧ (i.resolve t).2 = t) ∨
      (¬ i.FindsSlot t ∧ (i.resolve t).2.size = t.size + 1 ∧
        (i.resolve t).2.paramCount = t.paramCount) := by
  unfold resolve
  split
  · next op slot ty hkind =>
    unfold SlotTable.resolve
    rcases hfind : t.find? slot ty.widened with _ | index
    · refine .inr ⟨fun hfinds => ?_, SlotTable.size_allocate _ _ _, rfl⟩
      have hsome := hfinds op slot ty hkind
      rw [hfind] at hsome
      cases hsome
    · refine .inl ⟨fun op' slot' ty' hkind' => ?_, rfl⟩
      cases hkind.symm.trans hkind'
      rw [hfind]
      rfl
  · next hother => exact .inl ⟨fun op slot ty hkind => absurd hkind (hother op slot ty), rfl⟩

theorem size_le_resolveAll (body : List Instruction) (t : SlotTable) :
    t.size ≤ (resolveAll body t).2.size ∧ (resolveAll body t).2.paramCount = t.paramCount := by
  induction body generalizing t with
  | nil => exact ⟨Nat.le_refl _, rfl⟩
  | cons i rest ih =>
    simp only [resolveAll]
    obtain ⟨hsize, hcount⟩ := ih (i.resolve t).2
    rcases i.size_resolve t with ⟨-, heq⟩ | ⟨-, hnew, hparams⟩
    · rw [heq] at hsize hcount ⊢
      exact ⟨hsize, hcount⟩
    · exact ⟨by omega, hcount.trans hparams⟩

theorem size_resolveAll (body : List Instruction) (t : SlotTable) :
    (resolveAll body t).2.size = t.size ↔ ∀ i ∈ body, i.FindsSlot t := by
  induction body generalizing t with
  | nil => simp [resolveAll]
  | cons i rest ih =>
    simp only [resolveAll, List.forall_mem_cons]
    rcases i.size_resolve t with ⟨hfinds, heq⟩ | ⟨hfinds, hnew, -⟩
    · rw [heq, ih t]
      exact ⟨fun hrest => ⟨hfinds, hrest⟩, fun hall => hall.2⟩
    · obtain ⟨hsize, -⟩ := size_le_resolveAll rest (i.resolve t).2
      exact ⟨fun hall => by omega, fun hall => absurd hall.1 hfinds⟩

/-! ### What an instruction remembers -/

theorem isResolved_remember {i : Instruction} (h : i.IsResolved) (t : SlotTable) :
    (i.remember t).IsResolved := by
  unfold remember
  split
  · split
    · intro op slot ty hkind
      cases hkind
    · exact h
  · exact h

@[simp]
theorem position_remember (i : Instruction) (t : SlotTable) :
    (i.remember t).position = i.position := by
  unfold remember
  split
  · split <;> rfl
  · rfl

theorem code_remember (i : Instruction) (t : SlotTable) (options : Options) (types : TypeRegistry)
    (functions : FunctionRegistry) :
    (i.remember t).code options types functions = i.code options types functions := by
  unfold remember
  split
  · next op index hkind =>
    split
    · simp only [code, hkind]
    · rfl
  · rfl

theorem controlOp?_remember (i : Instruction) (t : SlotTable) :
    (i.remember t).controlOp? = i.controlOp? := by
  unfold remember
  split
  · next op index hkind =>
    split
    · simp only [controlOp?, hkind]
    · rfl
  · rfl

/-- An instruction that has a contract either reads no table, or remembers the type of its local. -/
theorem remember_cases {i : Instruction} {t : SlotTable} {pops : List OperandType}
    {pushed : Option OperandType} (hpops : i.popTypes t = .ok pops)
    (hpushed : i.pushType t = .ok pushed) :
    (i.remember t = i ∧ ∀ op index, i.kind ≠ .localVar op index none) ∨
      ∃ op index ty, i.kind = .localVar op index none ∧ t.typeOf index = .ok ty ∧
        i.remember t = ⟨i.position, .localVar op index (some ty)⟩ := by
  unfold remember
  split
  · next op index hkind =>
    have htype : ∃ ty, t.typeOf index = .ok ty := by
      cases op with
      | get =>
        simp only [pushType, hkind, localType] at hpushed
        obtain ⟨ty, hty, -⟩ := map_eq_ok.mp hpushed
        exact ⟨ty, hty⟩
      | set =>
        simp only [popTypes, hkind, localType] at hpops
        obtain ⟨ty, hty, -⟩ := map_eq_ok.mp hpops
        exact ⟨ty, hty⟩
      | tee =>
        simp only [popTypes, hkind, localType] at hpops
        obtain ⟨ty, hty, -⟩ := map_eq_ok.mp hpops
        exact ⟨ty, hty⟩
    obtain ⟨ty, hty⟩ := htype
    refine .inr ⟨op, index, ty, hkind, hty, ?_⟩
    rw [hty]
  · next hother => exact .inl ⟨rfl, hother⟩

theorem popTypes_remember {i : Instruction} {t : SlotTable} {pops : List OperandType}
    {pushed : Option OperandType} (hpops : i.popTypes t = .ok pops)
    (hpushed : i.pushType t = .ok pushed) (t' : SlotTable) :
    (i.remember t).popTypes t' = .ok pops ∧ (i.remember t).pushType t' = .ok pushed := by
  rcases remember_cases hpops hpushed with ⟨heq, hother⟩ | ⟨op, index, ty, hkind, hty, heq⟩
  · rw [heq]
    rcases i with ⟨position, kind⟩
    cases kind with
    | localVar op index known =>
      cases known with
      | none => exact absurd rfl (hother op index)
      | some ty => exact ⟨hpops, hpushed⟩
    | _ => exact ⟨hpops, hpushed⟩
  · rw [heq]
    simp only [popTypes, pushType, hkind, localType, hty] at hpops hpushed ⊢
    exact ⟨hpops, hpushed⟩

theorem remember_remember {i : Instruction} {t : SlotTable} {pops : List OperandType}
    {pushed : Option OperandType} (hpops : i.popTypes t = .ok pops)
    (hpushed : i.pushType t = .ok pushed) (t' : SlotTable) :
    (i.remember t).remember t' = i.remember t := by
  rcases remember_cases hpops hpushed with ⟨heq, hother⟩ | ⟨op, index, ty, hkind, hty, heq⟩
  · rw [heq]
    unfold remember
    split
    · next op index hkind => exact absurd hkind (hother op index)
    · rfl
  · rw [heq]
    rfl

end Instruction

/-! ### Verifying again -/

namespace Verifier

variable {ctx : Context} {s : State} {body : List Instruction}

theorem checkReturn_remember (ctx : Context) (i : Instruction) (t t' : SlotTable) :
    checkReturn { ctx with slots := t' } (i.remember t) = checkReturn ctx i := by
  unfold Instruction.remember
  split
  · next op index hkind =>
    split
    · simp only [checkReturn, hkind]
    · rfl
  · rfl

theorem step_remember {s' : State} {i : Instruction} (h : step ctx s i = .ok s') (t' : SlotTable) :
    step { ctx with slots := t' } s (i.remember ctx.slots) = .ok s' := by
  obtain ⟨hreturn, pops, frame, pushed, hpops, hframe, hpushed, hcontrol⟩ := step_eq_ok.mp h
  obtain ⟨hpops', hpushed'⟩ := Instruction.popTypes_remember hpops hpushed t'
  refine step_eq_ok.mpr ⟨?_, pops, frame, pushed, hpops', ?_, hpushed', ?_⟩
  · rw [checkReturn_remember]
    exact hreturn
  · rw [Instruction.position_remember]
    exact hframe
  · rw [Instruction.controlOp?_remember, Instruction.position_remember]
    exact hcontrol

theorem accepts_remember (h : Accepts ctx s body) (t' : SlotTable) :
    Accepts { ctx with slots := t' } s (body.map (·.remember ctx.slots)) := by
  induction body generalizing s with
  | nil => exact accepts_nil.mpr (accepts_nil.mp h)
  | cons i rest ih =>
    obtain ⟨s', hstep, hrest⟩ := accepts_cons.mp h
    rw [List.map_cons]
    exact accepts_cons.mpr ⟨s', step_remember hstep t', ih hrest⟩

theorem remembering_of_accepts (h : Accepts ctx s body) :
    remembering ctx s body = body.map (·.remember ctx.slots) := by
  induction body generalizing s with
  | nil => rfl
  | cons i rest ih =>
    obtain ⟨s', hstep, hrest⟩ := accepts_cons.mp h
    simp only [remembering, hstep, ih hrest, List.map_cons]

theorem map_remember_remember (h : Accepts ctx s body) (t' : SlotTable) :
    (body.map (·.remember ctx.slots)).map (·.remember t') = body.map (·.remember ctx.slots) := by
  induction body generalizing s with
  | nil => rfl
  | cons i rest ih =>
    obtain ⟨s', hstep, hrest⟩ := accepts_cons.mp h
    obtain ⟨-, pops, frame, pushed, hpops, -, hpushed, -⟩ := step_eq_ok.mp hstep
    simp only [List.map_cons, Instruction.remember_remember hpops hpushed, ih hrest]

end Verifier

theorem bodyCode_map_remember (t : SlotTable) (options : Options) (types : TypeRegistry)
    (functions : FunctionRegistry) (body : List Instruction) :
    bodyCode options types functions (body.map (·.remember t)) =
      bodyCode options types functions body := by
  induction body generalizing functions with
  | nil => rfl
  | cons i rest ih => simp only [List.map_cons, bodyCode, Instruction.code_remember, ih]

/-! ### New writers -/

namespace ModuleWriter

/-- Nothing has been written. -/
def IsNew (w : ModuleWriter) : Prop := w = newBinary ∨ ∃ options, w = newText options

theorem lines_of_unindexed (named : Bool) (depth : Nat) (code : List BodyOp) :
    ∃ lines, CallStyle.lines ⟨named, none⟩ depth code = .ok lines := by
  induction code generalizing depth with
  | nil => exact ⟨[], rfl⟩
  | cons op rest ih =>
    cases op with
    | op op =>
      simp only [CallStyle.lines]
      exact (ih _).elim fun lines hlines => ⟨_, bind_eq_ok.mpr ⟨lines, hlines, rfl⟩⟩
    | call name callee viewedAs =>
      obtain ⟨lines, hlines⟩ := ih depth
      have hcall : ∃ call, CallStyle.callText ⟨named, none⟩ name callee viewedAs = .ok call := by
        unfold CallStyle.callText
        split_ifs
        · exact ⟨_, rfl⟩
        · exact ⟨_, rfl⟩
      obtain ⟨call, hcall⟩ := hcall
      exact ⟨_, bind_eq_ok.mpr ⟨call, hcall, bind_eq_ok.mpr ⟨lines, hlines, rfl⟩⟩⟩

/-- The indices that functions have in the finished module, once a text module knows them. -/
def indices? : ModuleWriter → Option ModuleIndices
  | text m => m.indices
  | binary _ => none

theorem endFunction_of_unindexed {w : ModuleWriter} (h : w.indices? = none) (f : FunctionDraft) :
    (w.withCurrent f).endFunction.1 = .ok () := by
  cases w with
  | binary m => rfl
  | text m =>
    have hindices : m.indices = none := h
    obtain ⟨lines, hlines⟩ := lines_of_unindexed m.debugNames 0 f.code
    have htext : ∃ text, f.text ⟨m.debugNames, none⟩ = .ok text :=
      ⟨_, bind_eq_ok.mpr ⟨lines, hlines, rfl⟩⟩
    obtain ⟨text, htext⟩ := htext
    simp only [withCurrent, ModuleWriter.endFunction, TextModule.endFunction, TextModule.style,
      hindices, htext]

theorem IsNew.endFunction {w : ModuleWriter} (h : w.IsNew) (f : FunctionDraft) :
    (w.withCurrent f).endFunction.1 = .ok () := by
  refine endFunction_of_unindexed ?_ f
  rcases h with rfl | ⟨options, rfl⟩ <;> rfl

theorem IsNew.current {w : ModuleWriter} (h : w.IsNew) : w.current = none := by
  rcases h with rfl | ⟨options, rfl⟩ <;> rfl

theorem IsNew.completed {w : ModuleWriter} (h : w.IsNew) : w.completed = [] := by
  rcases h with rfl | ⟨options, rfl⟩ <;> rfl

end ModuleWriter

/-! ### The second compilation -/

namespace ModuleCompiler

variable {c : ModuleCompiler} {w w' : ModuleWriter} {code : FunctionCode}

theorem draft_eq_ok {id : Nat} {name : FunctionName} {locals : List OperandType}
    {f : FunctionDraft} (h : c.draft id name locals = .ok f) :
    c.types.lowerAll locals = .ok f.locals ∧ c.draft id name [] = .ok { f with locals := [] } := by
  simp only [draft, bind_eq_ok, pure_eq_ok] at h ⊢
  obtain ⟨params, hparams, result, hresult, lowered, hlowered, rfl⟩ := h
  exact ⟨hlowered, params, hparams, result, hresult, [], rfl, rfl⟩

theorem length_lowerAll {types : TypeRegistry} {tys : List OperandType} {lowered : List WasmType}
    (h : types.lowerAll tys = .ok lowered) : lowered.length = tys.length := by
  induction tys generalizing lowered with
  | nil =>
    cases h
    rfl
  | cons ty rest ih =>
    simp only [TypeRegistry.lowerAll, List.mapM_cons, bind_eq_ok, pure_eq_ok] at h
    obtain ⟨first, -, more, hmore, rfl⟩ := h
    rw [List.length_cons, List.length_cons, ih hmore]

/-- The function with what its instructions learned. -/
def Stages.learned (s : Stages c w code) : FunctionCode :=
  { code with instructions := s.body.map (·.remember s.slots) }

theorem Stages.remembered_eq (s : Stages c w code) :
    Verifier.remembered (verifierContext code.name s.slots) s.body =
      s.body.map (·.remember s.slots) :=
  Verifier.remembering_of_accepts (Verifier.accepts_iff_verify.mpr s.verify)

theorem Stages.locals_eq_nil (s : Stages c w code) :
    s.draft.locals = [] ↔ ∀ i ∈ code.instructions, i.FindsSlot s.params := by
  have hlength := length_lowerAll (draft_eq_ok s.drafted).1
  have hsize := Instruction.size_resolveAll code.instructions s.params
  obtain ⟨hle, hcount⟩ := Instruction.size_le_resolveAll code.instructions s.params
  have hparams := SlotTable.size_ofParams s.ofParams
  rw [s.resolveAll] at hsize hle hcount
  dsimp only at hsize hle hcount
  rw [SlotTable.length_localTypes] at hlength
  rw [← hsize, ← List.length_eq_zero_iff]
  omega

theorem Stages.mark_again (s : Stages c w code) :
    s.functions.mark code.name false = ((c.functions.mark code.name false).1, s.functions) :=
  FunctionRegistry.Extends.insert_again (extends_bodyCode s.written) false none

/-- The stages of compiling the function again into a new module. -/
def Stages.again (s : Stages c w code) (hw' : w'.IsNew) :
    Stages { c with functions := s.functions } w' s.learned where
  params := s.params
  slots := s.params
  body := s.body.map (·.remember s.slots)
  draft := { s.draft with locals := [] }
  emitted := s.emitted
  functions := s.functions
  ofParams := s.ofParams
  resolveAll := by
    refine Instruction.resolveAll_of_isResolved (fun i hi => ?_) s.params
    obtain ⟨i', hi', rfl⟩ := List.mem_map.mp hi
    have hbody : s.body = (Instruction.resolveAll code.instructions s.params).1 := by
      rw [s.resolveAll]
    rw [hbody] at hi'
    exact Instruction.isResolved_remember (Instruction.isResolved_resolveAll hi') s.slots
  verify := by
    have haccepts := Verifier.accepts_iff_verify.mpr s.verify
    exact Verifier.accepts_iff_verify.mp (Verifier.accepts_remember haccepts s.params)
  drafted := by
    rw [SlotTable.localTypes_ofParams s.ofParams]
    show ModuleCompiler.draft _ (s.functions.mark code.name false).1 code.name [] = _
    rw [s.mark_again]
    exact (draft_eq_ok s.drafted).2
  closed := hw'.current
  written := by
    rw [bodyCode_map_remember]
    show bodyCode c.options c.types (s.functions.mark code.name false).2 s.body = _
    rw [s.mark_again]
    exact bodyCode_again s.written (.refl _)
  ended := hw'.endFunction _

theorem Stages.completed_eq (s : Stages c w code) (hw : w.IsNew) :
    (c.compile w code).writer.completed = [s.draft.extend s.emitted] := by
  rw [s.compile_eq]
  show (w.withCurrent (s.draft.extend s.emitted)).endFunction.2.completed = _
  rw [ModuleWriter.completed_endFunction s.ended, hw.completed, List.nil_append]

theorem Stages.code_eq (s : Stages c w code) : (c.compile w code).code = s.learned := by
  rw [s.compile_eq, Stages.learned, s.remembered_eq]

theorem Stages.learned_again (s : Stages c w code) (hw' : w'.IsNew) :
    (s.again hw').learned = s.learned := by
  have haccepts := Verifier.accepts_iff_verify.mpr s.verify
  exact congrArg (FunctionCode.mk code.name) (Verifier.map_remember_remember haccepts s.params)

/-- **A function that is compiled again keeps its code and loses the declarations of its locals.** It
compiles to the same draft exactly if every slot that it accesses was the slot of a parameter. -/
theorem compile_again {id : Nat} (hw : w.IsNew) (hw' : w'.IsNew)
    (h : (c.compile w code).result = .ok id) :
    let first := c.compile w code
    let second := first.compiler.compile w' first.code
    ∃ f params, first.writer.completed = [f] ∧ second.result = .ok id ∧
      second.writer.completed = [{ f with locals := [] }] ∧
      second.compiler = first.compiler ∧ second.code = first.code ∧
      SlotTable.ofParams code.name.params = .ok params ∧
      (second.writer.completed = first.writer.completed ↔
        ∀ i ∈ code.instructions, i.FindsSlot params) := by
  intro first second
  obtain ⟨s⟩ := nonempty_stages h
  have hcompiler : first.compiler = { c with functions := s.functions } :=
    congrArg Compiled.compiler s.compile_eq
  have hsecond : second = ({ c with functions := s.functions } : ModuleCompiler).compile w'
      s.learned := by
    show first.compiler.compile w' first.code = _
    rw [hcompiler, s.code_eq]
  have hid : (c.functions.mark code.name false).1 = id := by
    rw [s.result_eq] at h
    exact Except.ok.inj h
  have hfirst : first.writer.completed = [s.draft.extend s.emitted] := s.completed_eq hw
  have hcompleted : second.writer.completed =
      [{ s.draft.extend s.emitted with locals := [] }] := by
    rw [hsecond]
    exact (s.again hw').completed_eq hw'
  refine ⟨s.draft.extend s.emitted, s.params, hfirst, ?_, hcompleted, ?_, ?_, s.ofParams, ?_⟩
  · rw [hsecond, (s.again hw').result_eq, ← hid]
    show Except.ok (s.functions.mark code.name false).1 = _
    rw [s.mark_again]
  · rw [hsecond, (s.again hw').compile_eq, hcompiler]
    rfl
  · rw [hsecond, (s.again hw').code_eq, s.learned_again hw', ← s.code_eq]
  · rw [hcompleted, hfirst, ← s.locals_eq_nil]
    constructor
    · intro heq
      exact (congrArg FunctionDraft.locals (List.cons.inj heq).1).symm
    · intro hnil
      rw [← hnil]
      rfl

/-- A procedure that copies its parameter to another slot. -/
def copying : FunctionCode where
  name := { className := "Main", methodName := "copy", signature := "(I)V", params := [.i32]
            result := none }
  instructions := [.ofSlot .get 0 .i32 .unknown, .ofSlot .set 1 .i32 .unknown]

/-- The copy is written to local `1` both times, and it is declared only the first time. -/
theorem compile_again_copying :
    let first := (new {}).compile .newBinary copying
    let second := first.compiler.compile (.newText {}) first.code
    first.result = .ok 0 ∧ second.result = .ok 0 ∧
      ∃ f : FunctionDraft, f.locals = [.value .i32] ∧ first.writer.completed = [f] ∧
        second.writer.completed = [{ f with locals := [] }] := by
  intro first second
  have hresult : first.result = .ok 0 := by decide +kernel
  have hlocals : first.writer.completed.map FunctionDraft.locals = [[.value .i32]] := by
    decide +kernel
  obtain ⟨f, params, hfirst, hsecond, hcompleted, -⟩ :=
    compile_again (.inl rfl) (.inr ⟨{}, rfl⟩) hresult
  refine ⟨hresult, hsecond, f, ?_, hfirst, hcompleted⟩
  rw [hfirst] at hlocals
  exact (List.cons.inj hlocals).1

/-- A procedure that stores a constant. -/
def storing : FunctionCode where
  name := { className := "Main", methodName := "run", signature := "()V", params := []
            result := none }
  instructions := [⟨.unknown, .const (.i32 7)⟩, .ofSlot .set 0 .i32 .unknown]

/-- The second time, the procedure stores into a local that it does not declare. -/
theorem compile_again_storing :
    let first := (new {}).compile .newBinary storing
    let second := first.compiler.compile .newBinary first.code
    first.result = .ok 0 ∧ second.result = .ok 0 ∧
      first.writer.completed =
        [{ id := 0, name := "Main.run", params := [], result := none, locals := [.value .i32]
           body := [.target (.i32Const 7), .target (.indexed .localSet 0)] }] ∧
      second.writer.completed =
        [{ id := 0, name := "Main.run", params := [], result := none, locals := []
           body := [.target (.i32Const 7), .target (.indexed .localSet 0)] }] := by
  decide +kernel

end ModuleCompiler

end WasmBackend
