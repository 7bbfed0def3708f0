import WasmBackend.Proofs.Compilation
import WasmBackend.Proofs.KnownFunctions

/-! # Compiling one function

A function that compiles goes through all stages: its slots are resolved, it is verified, a draft of
it is begun, the code of its instructions is written into the draft, and the draft is completed
(`Stages`). The same stages, and nothing else, determine what is left (`Stages.compile_eq`). -/

namespace WasmBackend

/-! ### Writers -/

namespace ModuleWriter

/-- The function being written. -/
def current : ModuleWriter → Option FunctionDraft
  | text m => m.current
  | binary m => m.current

/-- The module with an open function. -/
def withCurrent (f : FunctionDraft) : ModuleWriter → ModuleWriter
  | text m => .text { m with current := some f }
  | binary m => .binary { m with current := some f }

/-- The complete functions of a module that is not finished. -/
def completed : ModuleWriter → List FunctionDraft
  | text m => m.functions
  | binary m => m.buffered

@[simp]
theorem current_withCurrent (f : FunctionDraft) (w : ModuleWriter) :
    (w.withCurrent f).current = some f := by
  cases w <;> rfl

@[simp]
theorem completed_withCurrent (f : FunctionDraft) (w : ModuleWriter) :
    (w.withCurrent f).completed = w.completed := by
  cases w <;> rfl

@[simp]
theorem data_withCurrent (f : FunctionDraft) (w : ModuleWriter) :
    (w.withCurrent f).data = w.data := by
  cases w <;> rfl

@[simp]
theorem withCurrent_withCurrent (f f' : FunctionDraft) (w : ModuleWriter) :
    (w.withCurrent f).withCurrent f' = w.withCurrent f' := by
  cases w <;> rfl

theorem beginFunction_eq_ok {w w' : ModuleWriter} {f : FunctionDraft} :
    w.beginFunction f = .ok w' ↔ w.current = none ∧ w' = w.withCurrent f := by
  rcases w with ⟨debugNames, functions, indices, output, data, current⟩ |
    ⟨buffered, functions, importCount, data, current⟩
  · rcases current with _ | current
    · simp [ModuleWriter.beginFunction, TextModule.beginFunction, ModuleWriter.current,
        withCurrent, Except.map, eq_comm]
    · simp [ModuleWriter.beginFunction, TextModule.beginFunction, ModuleWriter.current,
        Except.map]
  · rcases current with _ | current
    · simp [ModuleWriter.beginFunction, BinaryModule.beginFunction, ModuleWriter.current,
        withCurrent, Except.map, eq_comm]
    · simp [ModuleWriter.beginFunction, BinaryModule.beginFunction, ModuleWriter.current,
        Except.map]

theorem emit_withCurrent (w : ModuleWriter) (f : FunctionDraft) (code : List Emission) :
    (w.withCurrent f).emit code = .ok (w.withCurrent (f.extend code)) := by
  cases w <;> rfl

theorem completed_endFunction {w : ModuleWriter} {f : FunctionDraft}
    (h : (w.withCurrent f).endFunction.1 = .ok ()) :
    (w.withCurrent f).endFunction.2.completed = w.completed ++ [f] := by
  cases w with
  | binary m => rfl
  | text m =>
    simp only [withCurrent, ModuleWriter.endFunction, TextModule.endFunction] at h ⊢
    split at h
    · rfl
    · cases h

theorem emit_eq_ok {w w' : ModuleWriter} {code : List Emission} (h : w.emit code = .ok w') :
    w' = w ∨ ∃ f, w' = w.withCurrent f := by
  rcases w with ⟨debugNames, functions, indices, output, data, current⟩ |
    ⟨buffered, functions, importCount, data, current⟩
  all_goals
    rcases current with _ | f
    · cases code with
      | nil =>
        cases h
        exact .inl rfl
      | cons e rest => cases h
    · cases h
      exact .inr ⟨f.extend code, rfl⟩

theorem writer_write (w : ModuleWriter) (i : Instruction) (options : Options) (types : TypeRegistry)
    (functions : FunctionRegistry) :
    (w.write i options types functions).writer = w ∨
      ∃ f, (w.write i options types functions).writer = w.withCurrent f := by
  unfold ModuleWriter.write
  split
  · exact .inl rfl
  · split
    · next hemit => exact emit_eq_ok hemit
    · exact .inl rfl

theorem writer_writeAll (w : ModuleWriter) (body : List Instruction) (options : Options)
    (types : TypeRegistry) (functions : FunctionRegistry) :
    (w.writeAll options types functions body).writer = w ∨
      ∃ f, (w.writeAll options types functions body).writer = w.withCurrent f := by
  induction body generalizing w functions with
  | nil => exact .inl rfl
  | cons i rest ih =>
    have hfirst := w.writer_write i options types functions
    simp only [ModuleWriter.writeAll]
    split
    · have hrest := ih (w.write i options types functions).writer
        (w.write i options types functions).functions
      rcases hfirst with hsame | ⟨f, hopen⟩
      · rw [hsame] at hrest ⊢
        exact hrest
      · rw [hopen] at hrest ⊢
        rcases hrest with hsame | ⟨f', hopen'⟩
        · exact .inr ⟨f, hsame⟩
        · exact .inr ⟨f', hopen'.trans (withCurrent_withCurrent f f' w)⟩
    · exact hfirst

@[simp]
theorem completed_writeAll (w : ModuleWriter) (body : List Instruction) (options : Options)
    (types : TypeRegistry) (functions : FunctionRegistry) :
    (w.writeAll options types functions body).writer.completed = w.completed := by
  rcases w.writer_writeAll body options types functions with hsame | ⟨f, hopen⟩
  · rw [hsame]
  · rw [hopen, completed_withCurrent]

@[simp]
theorem data_writeAll (w : ModuleWriter) (body : List Instruction) (options : Options)
    (types : TypeRegistry) (functions : FunctionRegistry) :
    (w.writeAll options types functions body).writer.data = w.data := by
  rcases w.writer_writeAll body options types functions with hsame | ⟨f, hopen⟩
  · rw [hsame]
  · rw [hopen, data_withCurrent]

@[simp]
theorem data_endFunction (w : ModuleWriter) : w.endFunction.2.data = w.data := by
  cases w with
  | binary m =>
    simp only [ModuleWriter.endFunction]
    split
    · next m' hend =>
      obtain ⟨f, -, rfl⟩ := BinaryModule.endFunction_eq_ok hend
      rfl
    · rfl
  | text m =>
    simp only [ModuleWriter.endFunction, TextModule.endFunction]
    split
    · rfl
    · split <;> rfl

theorem completed_endFunction_of_error {w : ModuleWriter} {e : CompileError}
    (h : w.endFunction.1 = .error e) : w.endFunction.2.completed = w.completed := by
  cases w with
  | binary m =>
    simp only [ModuleWriter.endFunction] at h ⊢
    split at h
    · cases h
    · rfl
  | text m =>
    simp only [ModuleWriter.endFunction, TextModule.endFunction] at h ⊢
    split at h
    · rfl
    · split at h
      · cases h
      · rfl

end ModuleWriter

/-! ### Code of a body -/

/-- The code of all instructions of a body, and the functions that are needed with it. -/
def bodyCode (options : Options) (types : TypeRegistry) :
    FunctionRegistry → List Instruction → Option (List Emission × FunctionRegistry)
  | functions, [] => some ([], functions)
  | functions, i :: rest =>
    match i.code options types functions with
    | (.error _, _) => none
    | (.ok code, functions) =>
      (bodyCode options types functions rest).map fun (more, functions) => (code ++ more, functions)

theorem bodyCode_cons {options : Options} {types : TypeRegistry}
    {functions functions' : FunctionRegistry} {i : Instruction} {rest : List Instruction}
    {code : List Emission} :
    bodyCode options types functions (i :: rest) = some (code, functions') ↔
      ∃ first next more, i.code options types functions = (.ok first, next) ∧
        bodyCode options types next rest = some (more, functions') ∧ code = first ++ more := by
  rcases hfirst : i.code options types functions with ⟨e | first, next⟩
  · simp [bodyCode, hfirst]
  · simp only [bodyCode, hfirst, Option.map_eq_some_iff, Prod.exists, Prod.mk.injEq,
      Except.ok.injEq]
    constructor
    · rintro ⟨more, after, hmore, rfl, rfl⟩
      exact ⟨first, next, more, ⟨rfl, rfl⟩, hmore, rfl⟩
    · rintro ⟨_, _, more, ⟨rfl, rfl⟩, hmore, rfl⟩
      exact ⟨more, functions', hmore, rfl, rfl⟩

section BodyCode

variable {options : Options} {types : TypeRegistry} {functions functions' : FunctionRegistry}
  {body : List Instruction} {code : List Emission}

theorem extends_bodyCode (h : bodyCode options types functions body = some (code, functions')) :
    functions.Extends functions' := by
  induction body generalizing functions code with
  | nil =>
    cases h
    exact .refl _
  | cons i rest ih =>
    obtain ⟨first, next, more, hfirst, hmore, rfl⟩ := bodyCode_cons.mp h
    exact (generates_code hfirst).grows.trans (ih hmore)

/-- **The calls of a body are those of its instructions, in order.** -/
theorem callsNamed_bodyCode (h : bodyCode options types functions body = some (code, functions')) :
    CallsNamed functions' (body.filterMap (Instruction.callee? options types)) code := by
  induction body generalizing functions code with
  | nil =>
    cases h
    exact .nil
  | cons i rest ih =>
    obtain ⟨first, next, more, hfirst, hmore, rfl⟩ := bodyCode_cons.mp h
    have hcalls := (generates_code hfirst).calls.mono (extends_bodyCode hmore)
    have hnames : (i :: rest).filterMap (Instruction.callee? options types) =
        (i.callee? options types).toList ++ rest.filterMap (Instruction.callee? options types) := by
      rw [List.filterMap_cons]
      cases i.callee? options types <;> rfl
    rw [hnames]
    exact hcalls.append (ih hmore)

theorem bodyCode_again (h : bodyCode options types functions body = some (code, functions'))
    {later : FunctionRegistry} (hlater : functions'.Extends later) :
    bodyCode options types later body = some (code, later) := by
  induction body generalizing functions code with
  | nil =>
    cases h
    rfl
  | cons i rest ih =>
    obtain ⟨first, next, more, hfirst, hmore, rfl⟩ := bodyCode_cons.mp h
    have hagain := (generates_code hfirst).again later ((extends_bodyCode hmore).trans hlater)
    exact bodyCode_cons.mpr ⟨first, later, more, hagain, ih hmore, rfl⟩

end BodyCode

namespace ModuleWriter

section WriteAll

variable {options : Options} {types : TypeRegistry} {functions functions' : FunctionRegistry}
  {body : List Instruction} {code : List Emission} (w : ModuleWriter) (f : FunctionDraft)

theorem write_of_code {i : Instruction}
    (h : i.code options types functions = (.ok code, functions')) :
    (w.withCurrent f).write i options types functions =
      ⟨.ok (), w.withCurrent (f.extend code), functions'⟩ := by
  unfold ModuleWriter.write
  rw [emissions_eq_ok.mpr h]
  simp only [emit_withCurrent]

theorem writeAll_of_bodyCode
    (h : bodyCode options types functions body = some (code, functions')) :
    (w.withCurrent f).writeAll options types functions body =
      ⟨.ok (), w.withCurrent (f.extend code), functions'⟩ := by
  induction body generalizing functions code f with
  | nil =>
    cases h
    simp [ModuleWriter.writeAll, FunctionDraft.extend]
  | cons i rest ih =>
    obtain ⟨first, next, more, hfirst, hmore, rfl⟩ := bodyCode_cons.mp h
    simp only [ModuleWriter.writeAll, write_of_code w f hfirst, ih (f.extend first) hmore]
    simp [FunctionDraft.extend]

theorem bodyCode_of_writeAll
    (h : ((w.withCurrent f).writeAll options types functions body).result = .ok ()) :
    ∃ code functions', bodyCode options types functions body = some (code, functions') := by
  induction body generalizing functions f with
  | nil => exact ⟨[], functions, rfl⟩
  | cons i rest ih =>
    rcases hfirst : i.code options types functions with ⟨e | first, next⟩
    · have hwrite : ((w.withCurrent f).write i options types functions).result =
          .error (e.located i.position) := by
        simp [ModuleWriter.write, Instruction.emissions, hfirst, Except.mapError]
      simp only [ModuleWriter.writeAll, hwrite] at h
      cases h
    · simp only [ModuleWriter.writeAll, write_of_code w f hfirst] at h
      obtain ⟨more, after, hmore⟩ := ih (f.extend first) h
      exact ⟨first ++ more, after, bodyCode_cons.mpr ⟨first, next, more, hfirst, hmore, rfl⟩⟩

end WriteAll

end ModuleWriter

/-! ### Stages -/

namespace ModuleCompiler

/-- What the verifier knows of a function with some slots. -/
def verifierContext (name : FunctionName) (slots : SlotTable) : Verifier.Context :=
  { function := name.fullName, result := name.result, slots }

/-- The stages of compiling a function, all of them successful. -/
structure Stages (c : ModuleCompiler) (w : ModuleWriter) (code : FunctionCode) where
  params : SlotTable
  /-- The parameters and the locals of the resolved body. -/
  slots : SlotTable
  body : List Instruction
  draft : FunctionDraft
  emitted : List Emission
  functions : FunctionRegistry
  ofParams : SlotTable.ofParams code.name.params = .ok params
  resolveAll : Instruction.resolveAll code.instructions params = (body, slots)
  verify : Verifier.verify (verifierContext code.name slots) body = .ok ()
  drafted : (c.marked code.name).draft (c.functions.mark code.name false).1 code.name
    slots.localTypes = .ok draft
  closed : w.current = none
  written : bodyCode c.options c.types (c.marked code.name).functions body =
    some (emitted, functions)
  ended : (w.withCurrent (draft.extend emitted)).endFunction.1 = .ok ()

variable {c : ModuleCompiler} {w : ModuleWriter} {code : FunctionCode}

/-- **What is left of a function that compiles.** -/
theorem Stages.compile_eq (s : Stages c w code) :
    c.compile w code =
      { result := .ok (c.functions.mark code.name false).1
        compiler := { c with functions := s.functions }
        writer := (w.withCurrent (s.draft.extend s.emitted)).endFunction.2
        code := { code with instructions :=
          Verifier.remembered (verifierContext code.name s.slots) s.body } } := by
  have hopened : (do
      Verifier.verify (verifierContext code.name s.slots) s.body
      let f ← (c.marked code.name).draft (c.functions.mark code.name false).1 code.name
        s.slots.localTypes
      w.beginFunction f) = Except.ok (w.withCurrent s.draft) := by
    simp only [bind_eq_ok]
    exact ⟨(), s.verify, s.draft, s.drafted,
      ModuleWriter.beginFunction_eq_ok.mpr ⟨s.closed, rfl⟩⟩
  have hwritten := ModuleWriter.writeAll_of_bodyCode w s.draft s.written
  have hended := s.ended
  simp only [marked, verifierContext] at hopened hwritten
  simp only [ModuleCompiler.compile, s.ofParams, s.resolveAll, hopened, hwritten, verifierContext]
  rw [hended]
  rfl

/-- A function that compiles goes through all stages. -/
theorem nonempty_stages {id : Nat} (h : (c.compile w code).result = .ok id) :
    Nonempty (Stages c w code) := by
  cases hparams : SlotTable.ofParams code.name.params with
  | error e => simp [ModuleCompiler.compile, hparams] at h
  | ok params =>
    rcases hresolve : Instruction.resolveAll code.instructions params with ⟨body, slots⟩
    let opened := do
      Verifier.verify (verifierContext code.name slots) body
      let f ← (c.marked code.name).draft (c.functions.mark code.name false).1 code.name
        slots.localTypes
      w.beginFunction f
    cases hopened : opened with
    | error e =>
      simp only [opened, marked, verifierContext] at hopened
      simp only [ModuleCompiler.compile, hparams, hresolve, hopened] at h
      cases h
    | ok w' =>
      have hsteps := hopened
      simp only [opened, bind_eq_ok] at hsteps
      obtain ⟨⟨⟩, hverify, f, hf, hbegin⟩ := hsteps
      obtain ⟨hclosed, rfl⟩ := ModuleWriter.beginFunction_eq_ok.mp hbegin
      simp only [opened, marked, verifierContext] at hopened
      simp only [ModuleCompiler.compile, hparams, hresolve, hopened] at h
      split at h
      · cases h
      · next hwritten =>
        obtain ⟨emitted, functions, hcode⟩ := ModuleWriter.bodyCode_of_writeAll w f hwritten
        rw [ModuleWriter.writeAll_of_bodyCode w f hcode] at h
        obtain ⟨⟨⟩, hended, -⟩ := map_eq_ok.mp h
        exact ⟨{ params, slots, body, draft := f, emitted, functions, ofParams := hparams
                 resolveAll := hresolve, verify := hverify, drafted := hf, closed := hclosed
                 written := hcode, ended := hended }⟩

theorem completed_of_error {e : CompileError} (h : (c.compile w code).result = .error e) :
    (c.compile w code).writer.completed = w.completed := by
  rcases c.compile_cases w code with ⟨-, hw, -⟩ | ⟨f, body, written, hbegun⟩
  · rw [hw]
  · obtain ⟨w', hbegin, rfl⟩ := hbegun.writes
    obtain ⟨-, rfl⟩ := ModuleWriter.beginFunction_eq_ok.mp hbegin
    have hresult := hbegun.result.symm.trans h
    rw [hbegun.writer]
    split at hresult
    · rcases hend : ((w.withCurrent f).writeAll c.options c.types
        (c.marked code.name).functions body).writer.endFunction.1 with e' | ⟨⟩
      · rw [ModuleWriter.completed_endFunction_of_error hend, ModuleWriter.completed_writeAll,
          ModuleWriter.completed_withCurrent]
      · rw [hend] at hresult
        cases hresult
    · rw [ModuleWriter.completed_writeAll, ModuleWriter.completed_withCurrent]

theorem completed_compile (c : ModuleCompiler) (w : ModuleWriter) (code : FunctionCode) :
    (c.compile w code).writer.completed = w.completed ∨
      ∃ s : Stages c w code,
        (c.compile w code).writer.completed = w.completed ++ [s.draft.extend s.emitted] := by
  rcases hresult : (c.compile w code).result with e | id
  · exact .inl (completed_of_error hresult)
  · obtain ⟨s⟩ := nonempty_stages hresult
    refine .inr ⟨s, ?_⟩
    rw [s.compile_eq]
    exact ModuleWriter.completed_endFunction s.ended

theorem data_compile (c : ModuleCompiler) (w : ModuleWriter) (code : FunctionCode) :
    (c.compile w code).writer.data = w.data := by
  rcases c.compile_cases w code with ⟨-, hw, -⟩ | ⟨f, body, written, hbegun⟩
  · rw [hw]
  · obtain ⟨w', hbegin, rfl⟩ := hbegun.writes
    obtain ⟨-, rfl⟩ := ModuleWriter.beginFunction_eq_ok.mp hbegin
    rw [hbegun.writer]
    split <;> simp

theorem Stages.body_eq (s : Stages c w code) : (s.draft.extend s.emitted).body = s.emitted := by
  rw [FunctionDraft.extend, (id_of_draft s.drafted).2, List.nil_append]

theorem Stages.result_eq (s : Stages c w code) :
    (c.compile w code).result = .ok (c.functions.mark code.name false).1 := by
  rw [s.compile_eq]

end ModuleCompiler

end WasmBackend
