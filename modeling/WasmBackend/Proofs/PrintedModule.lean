import WasmBackend.Proofs.WriterAgreement

/-! # The output of a text

A text with readable names can show every function, so at every moment its output is that of its
complete functions (`Printed`). Every request keeps this (`printed_run`). An attempt to finish the
module adds functions whose code the registry holds, all of them or those before the first that
cannot be written, and the output is again that of all functions of the module
(`nonempty_printedFinish`). -/

namespace WasmBackend

theorem FunctionDraft.exists_text_of_named (f : FunctionDraft) (style : CallStyle)
    (h : style.named = true) : ∃ text, f.text style = .ok text := by
  refine (f.exists_text_iff style).mpr fun e _ => ?_
  cases e with
  | op op => trivial
  | call name callee viewedAs => exact .inl h

/-- A text with readable names whose output is that of its complete functions. -/
structure TextModule.Printed (m : TextModule) : Prop where
  named : m.debugNames = true
  output : ∃ texts, List.Forall₂ (fun f text => f.text m.style = .ok text) m.functions texts ∧
    m.output = String.join texts

/-- Functions with a number of the registry can be put in order and shown again. -/
theorem TextModule.Printed.finish {m : TextModule} (h : m.Printed) {r : FunctionRegistry}
    (hclosed : m.current = none) (hknown : ∀ f ∈ m.functions, f.id < r.count) :
    ∃ m', m.finish r = (.ok (), m') ∧ m'.Printed ∧ m'.functions.Perm m.functions := by
  have hindices : ∀ f ∈ m.functions, ∃ p,
      ((ModuleIndices.ofRegistry r).get f.id).map (fun index => (index, f)) = .ok p := by
    intro f hf
    obtain ⟨index, hindex⟩ := FunctionRegistry.indexOf?_of_lt (hknown f hf)
    exact ⟨_, map_eq_ok.mpr ⟨index, FunctionRegistry.get_ofRegistry.mpr hindex, rfl⟩⟩
  obtain ⟨keyed, hkeyed⟩ := exists_forall₂ hindices
  let sorted := (keyed.mergeSort fun f g => f.1 ≤ g.1).map Prod.snd
  have hperm : sorted.Perm m.functions := by
    have hsame : m.functions.map id = keyed.map Prod.snd := by
      refine map_eq_map_of_forall₂ hkeyed fun f p hp => ?_
      obtain ⟨index, -, rfl⟩ := map_eq_ok.mp hp
      rfl
    rw [List.map_id] at hsame
    rw [hsame]
    exact (List.mergeSort_perm _ _).map _
  obtain ⟨texts, htexts⟩ := exists_forall₂ fun f (_ : f ∈ sorted) =>
    f.exists_text_of_named ⟨m.debugNames, some (.ofRegistry r)⟩ h.named
  refine ⟨{ m with functions := sorted, indices := some (.ofRegistry r)
                   output := String.join texts }, ?_, ⟨h.named, texts, htexts, rfl⟩, hperm⟩
  have hindexed : indexed (.ofRegistry r) m.functions = .ok keyed := mapM_eq_ok.mpr hkeyed
  simp only [TextModule.finish, hclosed, Option.isSome_none, Bool.false_eq_true, if_false, hindexed,
    TextModule.style]
  rw [mapM_eq_ok.mpr htexts]

/-! ### Writers -/

namespace ModuleWriter

/-- The writer of a text with readable names whose output is that of its complete functions. -/
def Printed (w : ModuleWriter) : Prop := ∃ m, w = .text m ∧ m.Printed

variable {w : ModuleWriter}

theorem printed_newText {options : Options} (h : options.debugNames = true) :
    (newText options).Printed :=
  ⟨_, rfl, h, [], .nil, rfl⟩

theorem Printed.withCurrent (h : w.Printed) (f : FunctionDraft) : (w.withCurrent f).Printed := by
  obtain ⟨m, rfl, hm⟩ := h
  exact ⟨_, rfl, hm.named, hm.output⟩

theorem Printed.withData (h : w.Printed) (data : DataSection) : (w.withData data).Printed := by
  obtain ⟨m, rfl, hm⟩ := h
  exact ⟨_, rfl, hm.named, hm.output⟩

theorem Printed.endFunction (h : w.Printed) : w.endFunction.2.Printed := by
  obtain ⟨m, rfl, hm⟩ := h
  obtain ⟨texts, htexts, houtput⟩ := hm.output
  refine ⟨m.endFunction.2, rfl, ?_⟩
  unfold TextModule.endFunction
  dsimp only
  split
  · exact hm
  · next f hopen =>
    split
    · next text htext =>
      refine ⟨hm.named, texts ++ [text], List.rel_append htexts (.cons htext .nil), ?_⟩
      rw [houtput]
      simp [String.join]
    · exact ⟨hm.named, texts, htexts, houtput⟩

theorem Printed.writeFunction (h : w.Printed) (f : FunctionDraft) :
    (w.writeFunction f).2.Printed := by
  unfold ModuleWriter.writeFunction
  split
  · next opened hbegin =>
    obtain ⟨-, rfl⟩ := beginFunction_eq_ok.mp hbegin
    exact (h.withCurrent f).endFunction
  · exact h

theorem Printed.writeAll (h : w.Printed) (body : List Instruction) (options : Options)
    (types : TypeRegistry) (functions : FunctionRegistry) :
    (w.writeAll options types functions body).writer.Printed := by
  rcases w.writer_writeAll body options types functions with hsame | ⟨f, hopen⟩
  · rw [hsame]
    exact h
  · rw [hopen]
    exact h.withCurrent f

theorem Printed.finish (h : w.Printed) {r : FunctionRegistry}
    (hknown : ∀ f ∈ w.completed, f.id < r.count) :
    (∃ e, w.finish r = (.error e, w)) ∨
      ∃ m, w.finish r = (.ok (), .text m) ∧ m.Printed ∧ m.functions.Perm w.completed := by
  obtain ⟨m, rfl, hm⟩ := h
  rcases hopen : m.current with _ | f
  · obtain ⟨m', hfinish, hprinted, hperm⟩ := hm.finish hopen hknown
    exact .inr ⟨m', by simp only [ModuleWriter.finish, hfinish], hprinted, hperm⟩
  · refine .inl ⟨.ofFault (.finishedWhileOpen none), ?_⟩
    simp [ModuleWriter.finish, TextModule.finish, hopen]

end ModuleWriter

/-! ### Requests -/

theorem ModuleCompiler.printed_compile (c : ModuleCompiler) {w : ModuleWriter} (h : w.Printed)
    (code : FunctionCode) : (c.compile w code).writer.Printed := by
  rcases c.compile_cases w code with ⟨-, hw, -⟩ | ⟨f, body, written, hbegun⟩
  · rw [hw]
    exact h
  · obtain ⟨w', hbegin, rfl⟩ := hbegun.writes
    obtain ⟨-, rfl⟩ := ModuleWriter.beginFunction_eq_ok.mp hbegin
    have hwritten := (h.withCurrent f).writeAll body c.options c.types
      (c.marked code.name).functions
    rw [hbegun.writer]
    split
    · exact hwritten.endFunction
    · exact hwritten

namespace Session

theorem printed_serve {s : Session} (h : s.writer.Printed) (q : Request) :
    (s.serve q).writer.Printed := by
  rcases serve_cases s.compiler q with ⟨code, rfl⟩ | ⟨bytes, rfl⟩ | ⟨c, -, hserve⟩
  · exact s.compiler.printed_compile h code
  · exact h.withData _
  · rw [show s.serve q = ⟨c, s.writer⟩ from hserve s.writer]
    exact h

/-- **The output of a text is that of its complete functions**, whatever was asked for. -/
theorem printed_run {s : Session} (h : s.writer.Printed) (requests : List Request) :
    (s.run requests).writer.Printed := by
  induction requests generalizing s with
  | nil => exact h
  | cons q rest ih => exact ih (printed_serve h q)

end Session

/-! ### Finishing -/

namespace ModuleCompiler

variable {c : ModuleCompiler} {w : ModuleWriter}

theorem printed_writeCodeFunctions (h : w.Printed)
    (functions : List (FunctionEntry × List CodeOp)) :
    (c.writeCodeFunctions w functions).2.Printed := by
  induction functions generalizing w with
  | nil => exact h
  | cons head rest ih =>
    unfold writeCodeFunctions
    split
    · exact h
    · next f hdraft =>
      have hwritten := h.writeFunction { f with body := head.2.map .op }
      split
      · next next hnext =>
        rw [hnext] at hwritten
        exact ih hwritten
      · next hnext =>
        rw [hnext] at hwritten
        exact hwritten

theorem completed_writeFunction_of_error {f : FunctionDraft} {e : CompileError} {w' : ModuleWriter}
    (h : w.writeFunction f = (.error e, w')) : w'.completed = w.completed := by
  unfold ModuleWriter.writeFunction at h
  split at h
  · next opened hbegin =>
    obtain ⟨-, rfl⟩ := ModuleWriter.beginFunction_eq_ok.mp hbegin
    have hended : (w.withCurrent f).endFunction.1 = .error e := congrArg Prod.fst h
    have hwriter : w' = (w.withCurrent f).endFunction.2 := (congrArg Prod.snd h).symm
    rw [hwriter, ModuleWriter.completed_endFunction_of_error hended,
      ModuleWriter.completed_withCurrent]
  · cases h
    rfl

/-- Code functions are written in order, up to the first that cannot be written. -/
theorem exists_writtenDrafts (c : ModuleCompiler) (w : ModuleWriter)
    (functions : List (FunctionEntry × List CodeOp)) :
    ∃ written drafts, written <+: functions ∧
      ((c.writeCodeFunctions w functions).1 = .ok () → written = functions) ∧
      List.Forall₂ (fun f d => c.codeDraft f = .ok d) written drafts ∧
      (c.writeCodeFunctions w functions).2.completed = w.completed ++ drafts := by
  induction functions generalizing w with
  | nil => exact ⟨[], [], ⟨[], rfl⟩, fun _ => rfl, .nil, (List.append_nil _).symm⟩
  | cons head rest ih =>
    have hnothing : [] <+: head :: rest := List.nil_prefix
    unfold writeCodeFunctions
    split
    · next e hdraft =>
      refine ⟨[], [], hnothing, ?_, .nil, (List.append_nil _).symm⟩
      intro hok
      cases hok
    · next f hdraft =>
      split
      · next next hnext =>
        obtain ⟨written, drafts, hinitial, hall, hdrafts, hcompleted⟩ := ih next
        have hhead : c.codeDraft head = .ok { f with body := head.2.map .op } :=
          map_eq_ok.mpr ⟨f, hdraft, rfl⟩
        refine ⟨head :: written, { f with body := head.2.map .op } :: drafts,
          List.cons_prefix_cons.mpr ⟨rfl, hinitial⟩, ?_, .cons hhead hdrafts, ?_⟩
        · intro hok
          rw [hall hok]
        · rw [hcompleted, (writeFunction_eq_ok hnext).1, List.append_assoc, List.singleton_append]
      · next e next hnext =>
        refine ⟨[], [], hnothing, ?_, .nil, ?_⟩
        · intro hok
          cases hok
        · rw [completed_writeFunction_of_error hnext, List.append_nil]

theorem extends_finish (c : ModuleCompiler) (w : ModuleWriter) :
    c.functions.Extends (c.finish w).compiler.functions := by
  unfold ModuleCompiler.finish
  dsimp only
  split
  · exact .refl _
  · split
    · exact .refl _
    · next functions hpatch =>
      have hpatched := extends_patchOffset hpatch
      split <;> exact hpatched

/-- What an attempt to finish a text leaves. -/
structure PrintedFinish (c : ModuleCompiler) (w : ModuleWriter) where
  module : TextModule
  /-- Code functions of the registry: all of them, or those before one that cannot be written. -/
  written : List (FunctionEntry × List CodeOp)
  drafts : List FunctionDraft
  writer : (c.finish w).writer = .text module
  printed : module.Printed
  isPrefix : written <+: (c.finish w).compiler.functions.codeFunctions
  all : (c.finish w).result = .ok () → written = (c.finish w).compiler.functions.codeFunctions
  drafted : List.Forall₂ (fun f d => (c.finish w).compiler.codeDraft f = .ok d) written drafts
  functions : module.functions.Perm (w.completed ++ drafts)

theorem printedFinish_of_error {after : ModuleCompiler} {last : ModuleWriter} {e : CompileError}
    (hfails : c.finish w = ⟨.error e, after, last⟩) (hlast : last.Printed)
    {written : List (FunctionEntry × List CodeOp)} {drafts : List FunctionDraft}
    (hinitial : written <+: after.functions.codeFunctions)
    (hdrafts : List.Forall₂ (fun f d => after.codeDraft f = .ok d) written drafts)
    (hcompleted : last.completed = w.completed ++ drafts) : Nonempty (PrintedFinish c w) := by
  obtain ⟨m, rfl, hm⟩ := hlast
  refine ⟨⟨m, written, drafts, ?_, hm, ?_, ?_, ?_, .of_eq hcompleted⟩⟩
  · rw [hfails]
  · rw [hfails]
    exact hinitial
  · intro hok
    rw [hfails] at hok
    cases hok
  · rw [hfails]
    exact hdrafts

/-- **A text that an attempt was made to finish** shows the functions that were complete, and code
functions of the registry. -/
theorem nonempty_printedFinish (h : w.Printed) (hsound : c.functions.Sound)
    (hknown : ∀ f ∈ w.completed, f.id < c.functions.count) : Nonempty (PrintedFinish c w) := by
  have hnothing : w.completed = w.completed ++ [] := (List.append_nil _).symm
  rcases hfinalize : c.strings.finalize w.data with ⟨e | data, strings⟩
  · have hfails : c.finish w = ⟨.error e, { c with strings }, w⟩ := by
      simp only [ModuleCompiler.finish, hfinalize]
    exact printedFinish_of_error hfails h List.nil_prefix .nil hnothing
  rcases hpatch : ({ c with strings } : ModuleCompiler).patchOffset with e | functions
  · have hfails : c.finish w = ⟨.error e, { c with strings }, w.withData data⟩ := by
      simp only [ModuleCompiler.finish, hfinalize, hpatch]
    exact printedFinish_of_error hfails (h.withData data) List.nil_prefix .nil
      ((w.completed_withData data).trans hnothing)
  obtain ⟨written, drafts, hinitial, hall, hdrafts, hcompleted⟩ := exists_writtenDrafts
    { c with strings, functions } (w.withData data) functions.codeFunctions
  have hlast := printed_writeCodeFunctions (c := { c with strings, functions }) (h.withData data)
    functions.codeFunctions
  rw [ModuleWriter.completed_withData] at hcompleted
  rcases hwritten : writeCodeFunctions { c with strings, functions } (w.withData data)
    functions.codeFunctions with ⟨e | ⟨⟩, last⟩
  · rw [hwritten] at hlast hcompleted
    have hfails : c.finish w = ⟨.error e, { c with strings, functions }, last⟩ := by
      simp only [ModuleCompiler.finish, hfinalize, hpatch, hwritten]
    exact printedFinish_of_error hfails hlast hinitial hdrafts hcompleted
  rw [hwritten] at hlast hcompleted hall
  have hadvances := advances_patchOffset hpatch
  -- code functions have the numbers of their entries
  have hids : ∀ f ∈ last.completed, f.id < functions.count := by
    intro f hf
    rw [hcompleted] at hf
    rcases List.mem_append.mp hf with hold | hnew
    · exact Nat.lt_of_lt_of_le (hknown f hold) hadvances.count_le
    · obtain ⟨function, hfunction, hdraft⟩ := exists_left_of_mem hdrafts hnew
      obtain ⟨params, result, -, -, rfl⟩ := codeDraft_eq_ok hdraft
      exact ((hadvances.sound hsound).codeFunctions (hinitial.subset hfunction)).1
  have hfinish : c.finish w = ⟨(last.finish functions).1, { c with strings, functions },
      (last.finish functions).2⟩ := by
    simp only [ModuleCompiler.finish, hfinalize, hpatch, hwritten]
  rcases hlast.finish hids with ⟨e, hopen⟩ | ⟨m, hclosed, hm, hperm⟩
  · rw [hopen] at hfinish
    exact printedFinish_of_error hfinish hlast hinitial hdrafts hcompleted
  · rw [hclosed] at hfinish
    refine ⟨⟨m, written, drafts, ?_, hm, ?_, fun _ => ?_, ?_, hcompleted ▸ hperm⟩⟩
    · rw [hfinish]
    · rw [hfinish]
      exact hinitial
    · rw [hfinish]
      exact hall rfl
    · rw [hfinish]
      exact hdrafts

end ModuleCompiler

end WasmBackend
