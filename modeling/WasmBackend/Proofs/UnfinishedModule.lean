import WasmBackend.Proofs.CallIndices

/-! # Modules that are not finished

A session can be asked to finish its module at any time and more than once, and it goes on serving
requests after that has failed. Only the first attempt can succeed, because the string table is
written once. An attempt that fails leaves a module without encoded functions, or one in which a
function is encoded twice (`Unusable`), and nothing that follows changes that. So a module is never
encoded in part: the code section of a module that was not finished is refused, or it is empty
(`codeSection_of_unfinished`). -/

namespace WasmBackend

/-! ### Encoded functions of a writer -/

namespace ModuleWriter

/-- The encoded functions of a module in binary form. -/
def encoded : ModuleWriter → Option (List EncodedFunction)
  | text _ => none
  | binary m => some m.functions

theorem encoded_eq_some {w : ModuleWriter} {functions : List EncodedFunction} :
    w.encoded = some functions ↔ ∃ m, w = .binary m ∧ m.functions = functions := by
  cases w with
  | text m => simp [encoded]
  | binary m => simp [encoded]

@[simp]
theorem encoded_withCurrent (f : FunctionDraft) (w : ModuleWriter) :
    (w.withCurrent f).encoded = w.encoded := by
  cases w <;> rfl

@[simp]
theorem encoded_withData (data : DataSection) (w : ModuleWriter) :
    (w.withData data).encoded = w.encoded := by
  cases w <;> rfl

@[simp]
theorem encoded_endFunction (w : ModuleWriter) : w.endFunction.2.encoded = w.encoded := by
  cases w with
  | text m => rfl
  | binary m =>
    simp only [ModuleWriter.endFunction]
    split
    · next m' hend =>
      obtain ⟨f, -, rfl⟩ := BinaryModule.endFunction_eq_ok hend
      rfl
    · rfl

@[simp]
theorem encoded_writeAll (w : ModuleWriter) (body : List Instruction) (options : Options)
    (types : TypeRegistry) (functions : FunctionRegistry) :
    (w.writeAll options types functions body).writer.encoded = w.encoded := by
  rcases w.writer_writeAll body options types functions with hsame | ⟨f, hopen⟩
  · rw [hsame]
  · rw [hopen, encoded_withCurrent]

end ModuleWriter

theorem ModuleCompiler.encoded_compile (c : ModuleCompiler) (w : ModuleWriter)
    (code : FunctionCode) : (c.compile w code).writer.encoded = w.encoded := by
  rcases c.compile_cases w code with ⟨-, hw, -⟩ | ⟨f, body, written, hbegun⟩
  · rw [hw]
  · obtain ⟨w', hbegin, rfl⟩ := hbegun.writes
    obtain ⟨-, rfl⟩ := ModuleWriter.beginFunction_eq_ok.mp hbegin
    rw [hbegun.writer]
    split <;> simp

theorem ModuleCompiler.finalized_finish (c : ModuleCompiler) (w : ModuleWriter) :
    (c.finish w).compiler.strings.finalized = true := by
  have hclosed : (c.strings.finalize w.data).2.finalized = true := by
    unfold StringPool.finalize
    split_ifs with hfinalized
    · exact hfinalized
    · rfl
    · split <;> rfl
  unfold ModuleCompiler.finish
  dsimp only
  split
  · exact hclosed
  · split
    · exact hclosed
    · split <;> exact hclosed

theorem ModuleCompiler.finish_of_finalized {c : ModuleCompiler}
    (h : c.strings.finalized = true) (w : ModuleWriter) :
    c.finish w = ⟨.error (.ofFault .finalizedTwice), c, w⟩ := by
  simp [ModuleCompiler.finish, StringPool.finalize, h]

/-- Resolving drafts that know only functions of the registry fails only for a function that is open,
or for one that was written twice. -/
theorem BinaryModule.Drafting.finish_of_error {r : FunctionRegistry} {m m' : BinaryModule}
    {e : CompileError} (h : m.Drafting r.count) (hfinish : m.finish r = (.error e, m')) :
    m' = m ∨ ∃ f, BinaryModule.repeated? m'.functions = some f := by
  obtain ⟨encoded, hencoded⟩ := BinaryModule.encodes_of_callsBelow h.buffered
  cases hcurrent : m.current with
  | some f =>
    simp only [BinaryModule.finish, hcurrent] at hfinish
    cases hfinish
    exact .inl rfl
  | none =>
    rcases BinaryModule.finish_of_forall₂ hcurrent hencoded with ⟨f, hrepeated, hfailed⟩ | ⟨-, hdone⟩
    · rw [hfailed] at hfinish
      cases hfinish
      exact .inr ⟨f, hrepeated⟩
    · rw [hdone] at hfinish
      cases hfinish

namespace Session

/-! ### Commands -/

/-- What can be asked of a session: a request, or to finish the module. -/
inductive Command
  | request (q : Request)
  | finish

/-- What is left after a command. -/
def perform (s : Session) : Command → Session
  | .request q => s.serve q
  | .finish => ⟨s.finish.compiler, s.finish.writer⟩

/-- What is left after some commands. -/
def performAll (s : Session) (commands : List Command) : Session := commands.foldl perform s

/-- The results of the attempts to finish the module, in order. -/
def attempts (s : Session) : List Command → List (Except CompileError Unit)
  | [] => []
  | .request q :: rest => (s.perform (.request q)).attempts rest
  | .finish :: rest => s.finish.result :: (s.perform .finish).attempts rest

theorem encoded_serve (s : Session) (q : Request) :
    (s.serve q).writer.encoded = s.writer.encoded := by
  rcases serve_cases s.compiler q with ⟨code, rfl⟩ | ⟨bytes, rfl⟩ | ⟨c, -, hserve⟩
  · exact s.compiler.encoded_compile s.writer code
  · exact s.writer.encoded_withData _
  · rw [show s.serve q = ⟨c, s.writer⟩ from hserve s.writer]

/-! ### Unusable modules -/

/-- The module is still being written, or it cannot be finished any more and one of its functions is
encoded twice. -/
inductive Unusable (s : Session) : Prop
  | drafting : ModuleCompiler.Drafting s.compiler s.writer → Unusable s
  | repeated {m : BinaryModule} {f : EncodedFunction} : s.writer = .binary m →
      BinaryModule.repeated? m.functions = some f → s.compiler.strings.finalized = true → Unusable s

theorem Unusable.serve {s : Session} (h : s.Unusable) (q : Request) : (s.serve q).Unusable := by
  have hrun := s.run_of_session [q]
  cases h with
  | drafting hdrafting => exact .drafting (hdrafting.run hrun)
  | @repeated m f hwriter hrepeated hfinalized =>
    have hencoded : (s.serve q).writer.encoded = some m.functions := by
      rw [encoded_serve, hwriter]
      rfl
    obtain ⟨m', hwriter', hfunctions⟩ := ModuleWriter.encoded_eq_some.mp hencoded
    exact .repeated hwriter' (hfunctions ▸ hrepeated) (hrun.keeps.finalized.trans hfinalized)

/-- A failed attempt to finish the module leaves it unusable. -/
theorem Unusable.finish {s : Session} (h : s.Unusable) (hfailed : s.finish.result ≠ .ok ()) :
    (s.perform .finish).Unusable := by
  cases h with
  | drafting hdrafting =>
    rcases hdrafting.finish with hstill | ⟨w, hdrafted, hresolve⟩
    · exact .drafting hstill
    · obtain ⟨e, he⟩ : ∃ e, s.finish.result = .error e := by
        rcases hresult : s.finish.result with e | ⟨⟩
        · exact ⟨e, rfl⟩
        · exact absurd hresult hfailed
      have hwriter := hdrafted.writer
      cases w with
      | text m => exact hwriter.elim
      | binary m =>
        rcases hm : m.finish (s.compiler.finish s.writer).compiler.functions with ⟨result, m'⟩
        have hboth : (result, ModuleWriter.binary m') = (s.finish.result, s.finish.writer) := by
          refine Eq.trans ?_ hresolve
          simp only [ModuleWriter.finish, hm]
        rw [he, Prod.mk.injEq] at hboth
        obtain ⟨rfl, hm'⟩ := hboth
        rcases BinaryModule.Drafting.finish_of_error hwriter hm with rfl | ⟨f, hrepeated⟩
        · refine .drafting ⟨hdrafted.sound, ?_⟩
          show ModuleWriter.Drafting _ s.finish.writer
          rw [← hm']
          exact hwriter
        · exact .repeated hm'.symm hrepeated (ModuleCompiler.finalized_finish _ _)
  | repeated hwriter hrepeated hfinalized =>
    have hsame : s.perform .finish = s := by
      simp only [perform, Session.finish, ModuleCompiler.finish_of_finalized hfinalized]
    rw [hsame]
    exact .repeated hwriter hrepeated hfinalized

theorem Unusable.performAll {s : Session} (h : s.Unusable) {commands : List Command}
    (hfailed : .ok () ∉ s.attempts commands) : (s.performAll commands).Unusable := by
  induction commands generalizing s with
  | nil => exact h
  | cons command rest ih =>
    cases command with
    | request q => exact ih (h.serve q) hfailed
    | finish =>
      rw [attempts, List.mem_cons, not_or] at hfailed
      obtain ⟨hthis, hrest⟩ := hfailed
      exact ih (h.finish fun hresult => hthis hresult.symm) hrest

/-- An unusable module encodes nothing. -/
theorem Unusable.codeSection {s : Session} (h : s.Unusable) :
    ∃ m, s.writer = .binary m ∧
      ((∃ e, m.codeSection = .error e) ∨ m.functions = [] ∧ m.codeSection = .ok [0]) := by
  cases h with
  | drafting hdrafting =>
    have hwriter := hdrafting.writer
    rcases hw : s.writer with m | m
    · rw [hw] at hwriter
      exact hwriter.elim
    · rw [hw] at hwriter
      refine ⟨m, rfl, ?_⟩
      by_cases hbuffered : m.buffered.isEmpty = true
      · refine .inr ⟨hwriter.functions, ?_⟩
        have hzero : Leb128.encodeNat 0 = [0] := by decide +kernel
        rw [BinaryModule.codeSection, if_pos hbuffered, hwriter.functions, BinaryModule.checkIndices]
        exact congrArg Except.ok (congrArg (· ++ []) hzero)
      · refine .inl ⟨.ofFault .notFinished, ?_⟩
        rw [BinaryModule.codeSection, if_neg hbuffered]
  | @repeated m f hwriter hrepeated hfinalized =>
    refine ⟨m, hwriter, .inl ?_⟩
    rcases hcode : m.codeSection with e | payload
    · exact ⟨e, rfl⟩
    · -- a section that is encoded has consecutive indices, so none of them twice
      obtain ⟨hindices, -⟩ := BinaryModule.codeSection_eq_ok hcode
      rw [BinaryModule.repeated?_eq_none hindices] at hrepeated
      cases hrepeated

/-- **No module is encoded in part.** Whatever was asked of a session, in whatever order and with
whatever failures: as long as no attempt to finish the module has succeeded, its code section is
refused, or it holds no function. -/
theorem codeSection_of_unfinished {options : Options} {commands : List Command}
    (hunfinished : .ok () ∉ (new options).attempts commands) :
    ∃ m, ((new options).performAll commands).writer = .binary m ∧
      ((∃ e, m.codeSection = .error e) ∨ m.functions = [] ∧ m.codeSection = .ok [0]) := by
  have hnew : (new options).Unusable := .drafting (ModuleCompiler.drafting_of_run .refl)
  exact (hnew.performAll hunfinished).codeSection

/-- A session in which a function stays open, because it calls a function whose result is of an
unknown class, and which goes on after it could not be finished. -/
def leftOpen : List Command :=
  let name : FunctionName :=
    { className := "Main", methodName := "run", signature := "()V", params := [], result := none }
  let unknown : FunctionName :=
    { className := "Main", methodName := "make", signature := "()LPoint;", params := []
      result := some (.struct 7) }
  let code : FunctionCode :=
    { name
      instructions :=
        [⟨.unknown, .call unknown (some (.struct 7))⟩,
          ⟨.unknown, .control .drop (some (.struct 7)) 0⟩] }
  [.request (.compile code), .finish, .request (.compile { name, instructions := [] }),
    .request (.registerStruct "Point" []), .finish]

/-- Both attempts to finish that session fail, and nothing is encoded. -/
theorem codeSection_leftOpen :
    ((new {}).attempts leftOpen).length = 2 ∧ .ok () ∉ (new {}).attempts leftOpen ∧
      ∃ m, ((new {}).performAll leftOpen).writer = .binary m ∧ m.current.isSome = true ∧
        m.codeSection = .ok [0] := by
  have hunfinished : .ok () ∉ (new {}).attempts leftOpen := by decide +kernel
  obtain ⟨m, hwriter, hsection⟩ := codeSection_of_unfinished hunfinished
  have hopen : ((new {}).performAll leftOpen).writer.current.isSome = true := by decide +kernel
  have hcompleted : ((new {}).performAll leftOpen).writer.completed = [] := by decide +kernel
  rw [hwriter] at hopen hcompleted
  refine ⟨by decide +kernel, hunfinished, m, hwriter, hopen, ?_⟩
  rcases hsection with ⟨e, he⟩ | ⟨-, hempty⟩
  · -- the section is refused only if a complete function waits or an index is missing
    have hfunctions : ((new {}).performAll leftOpen).writer.encoded = some [] := by decide +kernel
    rw [hwriter, ModuleWriter.encoded, Option.some.injEq] at hfunctions
    have hbuffered : m.buffered = [] := hcompleted
    rw [BinaryModule.codeSection, hbuffered, hfunctions] at he
    cases he
  · exact hempty

end Session

end WasmBackend
