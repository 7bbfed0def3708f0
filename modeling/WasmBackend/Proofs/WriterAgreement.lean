import WasmBackend.Proofs.ParallelModules

/-! # Agreement of text and binary form

The same commands are given to two sessions, one of which writes text and the other one a binary
module. Both compilers stay the same, and so does the function that is open (`InStep`); as long as no
attempt has been made to finish the modules, they also hold the same functions and data. So both
sessions accept the same functions and can be finished at the same time (`writers_agree`), with two
exceptions. If a function is written twice, only the binary module cannot be finished
(`binary_refuses_repeated_function`). And a text without readable names shows the index of a callee
as soon as the module is finished, and from then on it takes no call of a function that the finished
module does not have; a binary module resolves calls only when it is finished
(`text_refuses_new_callee`). -/

namespace WasmBackend

/-! ### Functions of an earlier registry -/

theorem FunctionRegistry.Extends.isSome_lookup_iff {r r' : FunctionRegistry} (h : r.Extends r')
    {name : FunctionName} {id : Nat} (hid : r'.lookup name = some id) :
    (r.lookup name).isSome = true ↔ id < r.count := by
  constructor
  · intro hknown
    obtain ⟨id', hid'⟩ := Option.isSome_iff_exists.mp hknown
    obtain ⟨entry, hentry, -⟩ := signatureName_of_lookup hid'
    cases hid.symm.trans (h.lookup hid')
    exact (List.getElem?_eq_some_iff.mp hentry).1
  · intro hlt
    obtain ⟨entry, hentry, hname⟩ := h.name_eq (List.getElem?_eq_getElem hlt)
    obtain ⟨found, hfound, hsignature⟩ := signatureName_of_lookup hid
    cases hentry.symm.trans hfound
    rw [FunctionRegistry.lookup, List.findIdx?_isSome, List.any_eq_true]
    refine ⟨_, List.getElem_mem hlt, ?_⟩
    rw [← hname, decide_eq_true_iff]
    exact hsignature

/-- Code calls only functions of an earlier registry exactly if all its callees were known there. -/
theorem calleeBelow_iff_lookup {r functions : FunctionRegistry} (hr : r.Extends functions)
    {names : List FunctionName} {code : List Emission} (hcalls : CallsNamed functions names code) :
    (∀ e ∈ code, e.CalleeBelow r.count) ↔ ∀ name ∈ names, (r.lookup name).isSome = true := by
  have hcallees : (∀ e ∈ code, e.CalleeBelow r.count) ↔
      ∀ callee ∈ code.filterMap Emission.callee?, callee < r.count := by
    constructor
    · intro h callee hcallee
      obtain ⟨e, he, hcalled⟩ := List.mem_filterMap.mp hcallee
      rcases e with op | ⟨name, callee', viewedAs⟩
      · cases hcalled
      · cases hcalled
        exact h _ he
    · intro h e he
      rcases e with op | ⟨name, callee, viewedAs⟩
      · trivial
      · exact h callee (List.mem_filterMap.mpr ⟨_, he, rfl⟩)
  rw [hcallees]
  constructor
  · intro h name hname
    obtain ⟨callee, hcallee, hlookup⟩ := exists_right_of_mem hcalls hname
    exact (hr.isSome_lookup_iff hlookup).mpr (h callee hcallee)
  · intro h callee hcallee
    obtain ⟨name, hname, hlookup⟩ := exists_left_of_mem hcalls hcallee
    exact (hr.isSome_lookup_iff hlookup).mp (h name hname)

/-! ### Sessions -/

namespace Session

/-- A session in which nothing has been asked for, which writes a module in text form. -/
def newText (options style : Options) : Session := ⟨.new options, .newText style⟩

theorem run_cons (s : Session) (q : Request) (rest : List Request) :
    s.run (q :: rest) = (s.serve q).run rest := rfl

/-- The registry with which the module was finished, if one of the commands finished it. -/
def finishedWith? (s : Session) : List Command → Option FunctionRegistry
  | [] => none
  | .request q :: rest => (s.perform (.request q)).finishedWith? rest
  | .finish :: rest => s.finish.functions?.or ((s.perform .finish).finishedWith? rest)

/-- Two sessions that were given the same commands, the first one with a module in text form. -/
structure InStep (named : Bool) (finished : Option FunctionRegistry) (t b : Session) : Prop where
  compiler : t.compiler = b.compiler
  text : t.writer.style? = some ⟨named, finished.map ModuleIndices.ofRegistry⟩
  binary : b.writer.style? = none
  current : t.writer.current = b.writer.current
  known : ∀ r, finished = some r → r.Extends b.compiler.functions
  /-- Until an attempt is made to finish them, the modules have the same functions and data. -/
  unfinished : b.compiler.strings.finalized = false → finished = none ∧
    t.writer.completed = b.writer.completed ∧ t.writer.data = b.writer.data ∧
    ModuleCompiler.Drafting b.compiler b.writer

variable {named : Bool} {finished : Option FunctionRegistry} {t b : Session}

theorem inStep_new (options style : Options) :
    InStep style.debugNames none (newText options style) (new options) where
  compiler := rfl
  text := rfl
  binary := rfl
  current := rfl
  known := by
    intro r hr
    cases hr
  unfinished := fun _ => ⟨rfl, rfl, rfl, ModuleCompiler.drafting_of_run .refl⟩

theorem InStep.serve_of_eq (h : InStep named finished t b) {q : Request} {c : ModuleCompiler}
    {w w' : ModuleWriter} (ht : t.serve q = ⟨c, w⟩) (hb : b.serve q = ⟨c, w'⟩)
    (htext : w.style? = t.writer.style?) (hbinary : w'.style? = b.writer.style?)
    (hcurrent : w.current = w'.current)
    (hsame : finished = none → t.writer.completed = b.writer.completed →
      t.writer.data = b.writer.data → w.completed = w'.completed ∧ w.data = w'.data) :
    InStep named finished (t.serve q) (b.serve q) := by
  have hrun := b.run_of_session [q]
  rw [run_cons, run_nil, hb] at hrun
  have hkeeps := hrun.keeps
  rw [ht, hb]
  refine ⟨rfl, htext.trans h.text, hbinary.trans h.binary, hcurrent, ?_, ?_⟩
  · intro r hr
    exact (h.known r hr).trans hkeeps.functions
  · intro hfinalized
    obtain ⟨hnone, hcompleted, hdata, hdrafting⟩ :=
      h.unfinished (hkeeps.finalized.symm.trans hfinalized)
    obtain ⟨hcompleted', hdata'⟩ := hsame hnone hcompleted hdata
    exact ⟨hnone, hcompleted', hdata', hdrafting.run hrun⟩

/-- A text takes every function that can be ended in a binary module, as long as its callees are not
shown by an index that they have not. -/
def TakesCallees (named : Bool) (finished : Option FunctionRegistry) (names : List FunctionName) :
    Prop :=
  named = true ∨ ∀ r, finished = some r → ∀ name ∈ names, (r.lookup name).isSome = true

theorem endFunction_iff_takesCallees {w : ModuleWriter}
    (hstyle : w.style? = some ⟨named, finished.map ModuleIndices.ofRegistry⟩)
    {functions : FunctionRegistry} (hknown : ∀ r, finished = some r → r.Extends functions)
    {names : List FunctionName} {f : FunctionDraft} (hcalls : CallsNamed functions names f.body) :
    (w.withCurrent f).endFunction.1 = .ok () ↔ TakesCallees named finished names := by
  rcases finished with _ | r
  · refine iff_of_true (ModuleWriter.ended_of_text hstyle f) (.inr fun r hr => ?_)
    cases hr
  · have hwrites : (w.withCurrent f).endFunction.1 = .ok () ↔
        ∀ e ∈ f.body, named = true ∨ e.CalleeBelow r.count := by
      rw [w.endFunction_ok_iff f, hstyle]
      simp only [Option.map_some, Option.some.injEq, forall_eq',
        CallStyle.writes_ofRegistry_iff]
    rw [hwrites, TakesCallees]
    simp only [Option.some.injEq, forall_eq']
    rw [← calleeBelow_iff_lookup (hknown r rfl) hcalls]
    cases named with
    | true => simp
    | false => simp

/-- What compiling a function in both sessions comes to: they stay in step, the instructions learn the
same, and the text takes the function exactly if the binary module does and the text takes its
callees. -/
structure CompilesAlike (named : Bool) (finished : Option FunctionRegistry) (t b : Session)
    (code : FunctionCode) : Prop where
  inStep : InStep named finished (t.serve (.compile code)) (b.serve (.compile code))
  learned : (t.compiler.compile t.writer code).code = (b.compiler.compile b.writer code).code
  result : ∀ id, (t.compiler.compile t.writer code).result = .ok id ↔
    (b.compiler.compile b.writer code).result = .ok id ∧
      TakesCallees named finished (b.calleeNames code)

variable {code learned : FunctionCode} {c : ModuleCompiler}

theorem InStep.compile_of_error (h : InStep named finished t b) {e e' : CompileError}
    {w w' : ModuleWriter} (ht : t.compiler.compile t.writer code = ⟨.error e, c, w, learned⟩)
    (hb : b.compiler.compile b.writer code = ⟨.error e', c, w', learned⟩)
    (hwriters : (w = t.writer ∧ w' = b.writer) ∨
      ∃ f, w = t.writer.withCurrent f ∧ w' = b.writer.withCurrent f) :
    CompilesAlike named finished t b code := by
  have htserve : t.serve (.compile code) = ⟨c, w⟩ := by simp only [serve, ht]
  have hbserve : b.serve (.compile code) = ⟨c, w'⟩ := by simp only [serve, hb]
  refine ⟨?_, by rw [ht, hb], fun id => by simp [ht, hb]⟩
  rcases hwriters with ⟨rfl, rfl⟩ | ⟨f, rfl, rfl⟩
  · exact h.serve_of_eq htserve hbserve rfl rfl h.current fun _ hcompleted hdata =>
      ⟨hcompleted, hdata⟩
  · refine h.serve_of_eq htserve hbserve (ModuleWriter.style?_withCurrent f _)
      (ModuleWriter.style?_withCurrent f _) ?_ fun _ hcompleted hdata => ?_
    · rw [ModuleWriter.current_withCurrent, ModuleWriter.current_withCurrent]
    · simpa using ⟨hcompleted, hdata⟩

/-- The function is ended in both sessions. -/
theorem InStep.compile_of_ended (h : InStep named finished t b) {f : FunctionDraft} {id : Nat}
    (ht : t.compiler.compile t.writer code = ⟨(t.writer.withCurrent f).endFunction.1.map fun _ => id,
      c, (t.writer.withCurrent f).endFunction.2, learned⟩)
    (hb : b.compiler.compile b.writer code = ⟨(b.writer.withCurrent f).endFunction.1.map fun _ => id,
      c, (b.writer.withCurrent f).endFunction.2, learned⟩)
    (hcalls : CallsNamed c.functions (b.calleeNames code) f.body) :
    CompilesAlike named finished t b code := by
  have htserve : t.serve (.compile code) = ⟨c, (t.writer.withCurrent f).endFunction.2⟩ := by
    simp only [serve, ht]
  have hbserve : b.serve (.compile code) = ⟨c, (b.writer.withCurrent f).endFunction.2⟩ := by
    simp only [serve, hb]
  have hrun := b.run_of_session [.compile code]
  rw [run_cons, run_nil, hbserve] at hrun
  have hknown : ∀ r, finished = some r → r.Extends c.functions :=
    fun r hr => (h.known r hr).trans hrun.keeps.functions
  have hended := endFunction_iff_takesCallees h.text hknown hcalls
  have hended' := ModuleWriter.ended_of_binary h.binary f
  refine ⟨?_, by rw [ht, hb], fun id' => ?_⟩
  · refine h.serve_of_eq htserve hbserve ?_ ?_ ?_ fun hnone hcompleted hdata => ?_
    · rw [ModuleWriter.style?_endFunction, ModuleWriter.style?_withCurrent]
    · rw [ModuleWriter.style?_endFunction, ModuleWriter.style?_withCurrent]
    · rw [ModuleWriter.current_endFunction_withCurrent,
        ModuleWriter.current_endFunction_withCurrent]
    · have htakes : TakesCallees named finished (b.calleeNames code) := by
        refine .inr fun r hr => ?_
        cases hnone.symm.trans hr
      have htext := hended.mpr htakes
      rw [ModuleWriter.completed_endFunction htext, ModuleWriter.completed_endFunction hended',
        ModuleWriter.data_endFunction, ModuleWriter.data_endFunction, ModuleWriter.data_withCurrent,
        ModuleWriter.data_withCurrent, hcompleted]
      exact ⟨rfl, hdata⟩
  · rw [ht, hb, ← hended, hended', map_eq_ok]
    constructor
    · rintro ⟨⟨⟩, hok, rfl⟩
      exact ⟨rfl, hok⟩
    · rintro ⟨hid, hok⟩
      exact ⟨(), hok, Except.ok.inj hid⟩

/-- **Both sessions take the same functions**, but for the callees of a finished text. -/
theorem InStep.compile (h : InStep named finished t b) (code : FunctionCode) :
    CompilesAlike named finished t b code := by
  obtain ⟨learned, hopened, houtcome⟩ := b.compiler.exists_outcome code
  have hsame : ∀ w, t.compiler.compile w code = b.compiler.compile w code := by
    intro w
    rw [h.compiler]
  -- a function that was left open by an error stops every later one, whatever the form
  rcases hopen : b.writer.current with _ | f
  · have hclosed : t.writer.current = none := h.current.trans hopen
    cases houtcome with
    | rejected e hrejected =>
      exact h.compile_of_error ((hsame _).trans (hrejected _ hclosed)) (hrejected _ hopen)
        (.inl ⟨rfl, rfl⟩)
    | stuck e f functions hstuck =>
      exact h.compile_of_error ((hsame _).trans (hstuck _ hclosed)) (hstuck _ hopen)
        (.inr ⟨f, rfl, rfl⟩)
    | ended f functions hcalls hended =>
      exact h.compile_of_ended ((hsame _).trans (hended _ hclosed)) (hended _ hopen) hcalls
  · obtain ⟨e, ht⟩ := hopened t.writer f (h.current.trans hopen)
    obtain ⟨e', hb⟩ := hopened b.writer f hopen
    exact h.compile_of_error ((hsame _).trans ht) hb (.inl ⟨rfl, rfl⟩)

theorem InStep.serve (h : InStep named finished t b) (q : Request) :
    InStep named finished (t.serve q) (b.serve q) := by
  have hsame : t = ⟨b.compiler, t.writer⟩ := by rw [← h.compiler]
  rcases serve_cases b.compiler q with ⟨code, rfl⟩ | ⟨bytes, rfl⟩ | ⟨c, -, hserve⟩
  · exact (h.compile code).inStep
  · refine h.serve_of_eq (w := t.writer.withData (t.writer.data.append bytes)) ?_ rfl
      (ModuleWriter.style?_withData _ _) (ModuleWriter.style?_withData _ _) ?_
      fun _ hcompleted hdata => ?_
    · rw [hsame]
      rfl
    · rw [ModuleWriter.current_withData, ModuleWriter.current_withData, h.current]
    · rw [ModuleWriter.completed_withData, ModuleWriter.completed_withData,
        ModuleWriter.data_withData, ModuleWriter.data_withData, hdata]
      exact ⟨hcompleted, rfl⟩
  · refine h.serve_of_eq (w := t.writer) ?_ (hserve b.writer) rfl rfl h.current
      fun _ hcompleted hdata => ⟨hcompleted, hdata⟩
    rw [hsame]
    exact hserve t.writer

theorem InStep.run (h : InStep named finished t b) (requests : List Request) :
    InStep named finished (t.run requests) (b.run requests) := by
  induction requests generalizing t b with
  | nil => exact h
  | cons q rest ih => exact ih (h.serve q)

/-- What finishing the modules of both sessions comes to: they stay in step, a binary module is
finished only if the text is, and also if the text is and no function was written twice. -/
structure FinishesAlike (named : Bool) (finished : Option FunctionRegistry) (t b : Session) :
    Prop where
  inStep : InStep named (finished.or t.finish.functions?) (t.perform .finish) (b.perform .finish)
  ok : b.finish.result = .ok () → t.finish.result = .ok ()
  ok_of_nodup : (b.compiler.writtenIds b.writer).Nodup → t.finish.result = .ok () →
    b.finish.result = .ok ()

theorem InStep.finish (h : InStep named finished t b) : FinishesAlike named finished t b := by
  have hclosed : (b.perform .finish).compiler.strings.finalized = true :=
    ModuleCompiler.finalized_finish _ _
  -- the first attempt closes the string table, and every later one fails on it in both sessions
  rcases hfinalized : b.compiler.strings.finalized with _ | _
  · obtain ⟨rfl, hcompleted, hdata, hdrafting⟩ := h.unfinished hfinalized
    have hparallel : ModuleWriter.Parallel named t.writer b.writer :=
      ⟨h.text, h.binary, h.current, hcompleted⟩
    obtain ⟨hcompiler, htext, hbinary, hcurrent, hok, hnodup⟩ :=
      ModuleCompiler.finishesAlike_of_parallel hparallel hdata hdrafting
    have ht : t.finish = b.compiler.finish t.writer := by rw [Session.finish, h.compiler]
    rw [← ht] at hcompiler htext hcurrent hok hnodup
    refine ⟨⟨hcompiler, ?_, hbinary, hcurrent, ?_, ?_⟩, hok, hnodup⟩
    · rw [Option.none_or]
      exact htext
    · intro r hr
      rw [Option.none_or] at hr
      rw [t.finish.eq_of_functions? hr, hcompiler]
      exact .refl _
    · intro hopen
      cases hopen.symm.trans hclosed
  · have ht : t.finish = ⟨.error (.ofFault .finalizedTwice), t.compiler, t.writer⟩ :=
      ModuleCompiler.finish_of_finalized (h.compiler ▸ hfinalized) t.writer
    have hb : b.finish = ⟨.error (.ofFault .finalizedTwice), b.compiler, b.writer⟩ :=
      ModuleCompiler.finish_of_finalized hfinalized b.writer
    refine ⟨?_, ?_, ?_⟩
    · have htperform : t.perform .finish = t := by rw [perform, ht]
      have hbperform : b.perform .finish = b := by rw [perform, hb]
      have hnone : t.finish.functions? = none := by rw [ht]; rfl
      rw [htperform, hbperform, hnone, Option.or_none]
      exact h
    · intro hok
      rw [hb] at hok
      cases hok
    · intro _ hok
      rw [ht] at hok
      cases hok

theorem InStep.performAll (h : InStep named finished t b) (commands : List Command) :
    InStep named (finished.or (t.finishedWith? commands)) (t.performAll commands)
      (b.performAll commands) := by
  induction commands generalizing finished t b with
  | nil =>
    rw [finishedWith?, Option.or_none]
    exact h
  | cons command rest ih =>
    cases command with
    | request q => exact ih (h.serve q)
    | finish =>
      rw [finishedWith?, ← Option.or_assoc]
      exact ih h.finish.inStep

/-- **A text and a binary module accept the same.** Two sessions that were given the same commands,
one with a text and one with a binary module, have the same compiler. A function compiles in both
with the same number and teaches its instructions the same; only if the text shows callees by index
and has been finished, it takes just those functions whose callees were known then. A binary module
can be finished only if the text can, and whenever the text can and no function is written twice. -/
theorem writers_agree (options style : Options) (commands : List Command) :
    let text := (newText options style).performAll commands
    let binary := (new options).performAll commands
    text.compiler = binary.compiler ∧
      (∀ code,
        (text.compiler.compile text.writer code).code =
            (binary.compiler.compile binary.writer code).code ∧
          ∀ id, (text.compiler.compile text.writer code).result = .ok id ↔
            (binary.compiler.compile binary.writer code).result = .ok id ∧
              (style.debugNames = true ∨
                ∀ r, (newText options style).finishedWith? commands = some r →
                  ∀ name ∈ binary.calleeNames code, (r.lookup name).isSome = true)) ∧
      (binary.finish.result = .ok () → text.finish.result = .ok ()) ∧
      ((binary.compiler.writtenIds binary.writer).Nodup →
        (text.finish.result = .ok () ↔ binary.finish.result = .ok ())) := by
  intro text binary
  have h := (inStep_new options style).performAll commands
  rw [Option.none_or] at h
  refine ⟨h.compiler, fun code => ⟨(h.compile code).learned, (h.compile code).result⟩, h.finish.ok,
    fun hids => ⟨h.finish.ok_of_nodup hids, h.finish.ok⟩⟩

/-- A procedure that calls another one. -/
def callingStep : FunctionCode :=
  let name := fun methodName : String => FunctionName.mk "Main" methodName "()V" [] none
  { name := name "run", instructions := [⟨.unknown, .call (name "step") none⟩] }

/-- The procedure is compiled and both modules are finished; it can be compiled again in both, because
its callee was known by then. -/
theorem writers_agree_callingStep :
    let commands := [.request (.compile callingStep), .finish]
    let text := (newText {} {}).performAll commands
    let binary := (new {}).performAll commands
    (new {}).attempts commands = [.ok ()] ∧
      ((newText {} {}).finishedWith? commands).isSome = true ∧
      (binary.compiler.compile binary.writer callingStep).result = .ok 0 ∧
      (text.compiler.compile text.writer callingStep).result = .ok 0 := by
  intro commands text binary
  obtain ⟨-, hcompile, -⟩ := writers_agree {} {} commands
  have hbinary : (binary.compiler.compile binary.writer callingStep).result = .ok 0 := by
    decide +kernel
  have hknown : ∀ r ∈ (newText {} {}).finishedWith? commands,
      ∀ name ∈ binary.calleeNames callingStep, (r.lookup name).isSome = true := by decide +kernel
  exact ⟨by decide +kernel, by decide +kernel, hbinary,
    ((hcompile callingStep).2 0).mpr ⟨hbinary, .inr hknown⟩⟩

/-- In a finished text without readable names a call of a new function is refused; a finished binary
module takes it. -/
theorem text_refuses_new_callee :
    let text := (newText {} {}).performAll [.finish]
    let binary := (new {}).performAll [.finish]
    ((newText {} {}).finishedWith? [.finish]).isSome = true ∧
      (text.compiler.compile text.writer callingStep).result =
        .error (.ofFault (.unknownFunction 1)) ∧
      (binary.compiler.compile binary.writer callingStep).result = .ok 0 := by
  decide +kernel

/-- A function that is compiled twice is shown twice in a text; a binary module cannot be finished. -/
theorem binary_refuses_repeated_function :
    let commands := [.request (.compile callingStep), .request (.compile callingStep)]
    let text := (newText {} {}).performAll commands
    let binary := (new {}).performAll commands
    binary.compiler.writtenIds binary.writer = [0, 0] ∧ text.finish.result = .ok () ∧
      binary.finish.result ≠ .ok () := by
  intro commands text binary
  have hids : binary.compiler.writtenIds binary.writer = [0, 0] := by decide +kernel
  refine ⟨hids, ?_, fun hok => ?_⟩
  · let shown := "(func $Main.run\n  call 1\n)\n"
    let m : TextModule :=
      { debugNames := false, functions := binary.writer.completed, output := shown ++ shown }
    have hfinish : text.finish.result = (m.finish binary.compiler.functions).1 := rfl
    obtain ⟨functions, output, hok⟩ := TextModule.finish_of_calleeBelow
      (m := m) (r := binary.compiler.functions) rfl (by decide +kernel) (by decide +kernel)
    rw [hfinish, hok]
  · have hnodup := ModuleCompiler.nodup_writtenIds (by decide +kernel) hok
    rw [hids] at hnodup
    exact absurd hnodup (by decide)

end Session

end WasmBackend
