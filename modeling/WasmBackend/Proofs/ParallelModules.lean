import WasmBackend.Proofs.CompleteModule
import WasmBackend.Proofs.TextListing
import WasmBackend.Proofs.UnfinishedModule

/-! # Modules written in parallel

A text and a binary module take the same functions (`Parallel`). What tells them apart is the moment
at which a call needs the index of its callee: a text needs it to show a function that is ended
(`endFunction_ok_iff`), a binary module only when it is finished.

* `exists_outcome`: compiling a function comes to the same in every module, up to the end of the
  function.
* `finishesAlike_of_parallel`: modules with the same functions are finished alike. -/

namespace WasmBackend

/-! ### Text of a function -/

namespace CallStyle

/-- A call can be written: it names the callee, or needs no index, or there is one. -/
def Writes (style : CallStyle) : Emission → Prop
  | .op _ => True
  | .call _ callee _ => style.named = true ∨
      ∀ indices, style.indices = some indices → ∃ index, indices.get callee = .ok index

theorem exists_callText_iff (style : CallStyle) (name : FunctionName) (callee : Nat)
    (viewedAs : Option WasmType) :
    (∃ text, style.callText name callee viewedAs = .ok text) ↔
      style.Writes (.call name callee viewedAs) := by
  obtain ⟨named, indices⟩ := style
  cases named with
  | true => exact ⟨fun _ => .inl rfl, fun _ => ⟨_, rfl⟩⟩
  | false =>
    cases indices with
    | none =>
      refine ⟨fun _ => .inr fun indices hindices => ?_, fun _ => ⟨_, rfl⟩⟩
      cases hindices
    | some indices =>
      constructor
      · rintro ⟨text, htext⟩
        obtain ⟨index, hindex, -⟩ := map_eq_ok.mp htext
        refine .inr fun indices' hindices' => ?_
        cases hindices'
        exact ⟨index, hindex⟩
      · rintro (hnamed | hindex)
        · cases hnamed
        · obtain ⟨index, hindex⟩ := hindex indices rfl
          exact ⟨_, map_eq_ok.mpr ⟨index, hindex, rfl⟩⟩

theorem exists_lines_op_iff (style : CallStyle) (depth : Nat) (instr : TargetOp)
    (rest : List BodyOp) :
    ∃ next, (∃ lines, style.lines depth (.op instr :: rest) = .ok lines) ↔
      ∃ lines, style.lines next rest = .ok lines := by
  obtain ⟨next, line, hlines⟩ : ∃ next line, style.lines depth (.op instr :: rest) =
      (do return line :: (← style.lines next rest)) := by
    cases instr <;> exact ⟨_, _, rfl⟩
  refine ⟨next, ?_⟩
  rw [hlines]
  constructor
  · rintro ⟨lines, hbound⟩
    obtain ⟨more, hmore, -⟩ := bind_eq_ok.mp hbound
    exact ⟨more, hmore⟩
  · rintro ⟨more, hmore⟩
    exact ⟨_, bind_eq_ok.mpr ⟨more, hmore, rfl⟩⟩

theorem exists_lines_iff (style : CallStyle) (place : Nat × WasmType → Nat) (code : List Emission)
    (depth : Nat) :
    (∃ lines, style.lines depth (code.map (Emission.place place)) = .ok lines) ↔
      ∀ e ∈ code, style.Writes e := by
  induction code generalizing depth with
  | nil =>
    constructor
    · intro _ e he
      cases he
    · intro _
      exact ⟨[], rfl⟩
  | cons e rest ih =>
    rw [List.forall_mem_cons, List.map_cons]
    rcases e with op | ⟨name, callee, viewedAs⟩
    · obtain ⟨instr, hinstr⟩ : ∃ instr, (Emission.op op).place place = .op instr := by
        cases op <;> exact ⟨_, rfl⟩
      obtain ⟨next, hlines⟩ := style.exists_lines_op_iff depth instr (rest.map (Emission.place place))
      rw [hinstr, hlines, ih next]
      exact (and_iff_right trivial).symm
    · rw [Emission.place, CallStyle.lines, ← ih depth, ← exists_callText_iff]
      constructor
      · rintro ⟨lines, hlines⟩
        obtain ⟨text, htext, hlines⟩ := bind_eq_ok.mp hlines
        obtain ⟨more, hmore, -⟩ := bind_eq_ok.mp hlines
        exact ⟨⟨text, htext⟩, more, hmore⟩
      · rintro ⟨⟨text, htext⟩, more, hmore⟩
        exact ⟨_, bind_eq_ok.mpr ⟨text, htext, bind_eq_ok.mpr ⟨more, hmore, rfl⟩⟩⟩

end CallStyle

/-- **A function has a text exactly if all its calls can be written.** -/
theorem FunctionDraft.exists_text_iff (f : FunctionDraft) (style : CallStyle) :
    (∃ text, f.text style = .ok text) ↔ ∀ e ∈ f.body, style.Writes e := by
  rw [← style.exists_lines_iff (fun key => f.scratchBase + f.scratch.idxOf key) f.body 0]
  constructor
  · rintro ⟨text, htext⟩
    obtain ⟨lines, hlines, -⟩ := bind_eq_ok.mp htext
    exact ⟨lines, hlines⟩
  · rintro ⟨lines, hlines⟩
    exact ⟨_, bind_eq_ok.mpr ⟨lines, hlines, rfl⟩⟩

/-! ### Writers -/

namespace ModuleWriter

/-- How calls are written in a module in text form. -/
def style? : ModuleWriter → Option CallStyle
  | text m => some m.style
  | binary _ => none

@[simp]
theorem style?_withCurrent (f : FunctionDraft) (w : ModuleWriter) :
    (w.withCurrent f).style? = w.style? := by
  cases w <;> rfl

@[simp]
theorem style?_withData (data : DataSection) (w : ModuleWriter) :
    (w.withData data).style? = w.style? := by
  cases w <;> rfl

@[simp]
theorem style?_endFunction (w : ModuleWriter) : w.endFunction.2.style? = w.style? := by
  cases w with
  | binary m =>
    simp only [ModuleWriter.endFunction]
    split <;> rfl
  | text m =>
    simp only [ModuleWriter.endFunction, TextModule.endFunction]
    split
    · rfl
    · split <;> rfl

theorem style?_writeFunction (f : FunctionDraft) (w : ModuleWriter) :
    (w.writeFunction f).2.style? = w.style? := by
  unfold writeFunction
  split
  · next opened hbegin =>
    obtain ⟨-, rfl⟩ := beginFunction_eq_ok.mp hbegin
    rw [style?_endFunction, style?_withCurrent]
  · rfl

@[simp]
theorem current_endFunction_withCurrent (w : ModuleWriter) (f : FunctionDraft) :
    (w.withCurrent f).endFunction.2.current = none := by
  cases w with
  | binary m => rfl
  | text m =>
    simp only [withCurrent, ModuleWriter.endFunction, TextModule.endFunction]
    split <;> rfl

/-- A function can be completed exactly if its calls can be written. -/
theorem endFunction_ok_iff (w : ModuleWriter) (f : FunctionDraft) :
    (w.withCurrent f).endFunction.1 = .ok () ↔
      ∀ style, w.style? = some style → ∀ e ∈ f.body, style.Writes e := by
  cases w with
  | binary m =>
    constructor
    · intro _ style hstyle
      cases hstyle
    · intro _
      rfl
  | text m =>
    have htext := f.exists_text_iff m.style
    have hend : ((text m).withCurrent f).endFunction.1 = .ok () ↔
        ∃ text, f.text m.style = .ok text := by
      simp only [withCurrent, ModuleWriter.endFunction, TextModule.endFunction, TextModule.style]
      cases f.text ⟨m.debugNames, m.indices⟩ <;> simp
    rw [hend, htext]
    constructor
    · intro h style hstyle
      cases hstyle
      exact h
    · intro h
      exact h m.style rfl

/-- A text and a binary module before they are finished, with the same functions. -/
structure Parallel (named : Bool) (w w' : ModuleWriter) : Prop where
  text : w.style? = some ⟨named, none⟩
  binary : w'.style? = none
  current : w.current = w'.current
  completed : w.completed = w'.completed

section Parallel

variable {named : Bool} {w w' : ModuleWriter}

theorem Parallel.withData (h : Parallel named w w') (data : DataSection) :
    Parallel named (w.withData data) (w'.withData data) := by
  refine ⟨?_, ?_, ?_, ?_⟩
  · rw [style?_withData, h.text]
  · rw [style?_withData, h.binary]
  · rw [current_withData, current_withData, h.current]
  · rw [completed_withData, completed_withData, h.completed]

theorem ended_of_text (h : w.style? = some ⟨named, none⟩) (f : FunctionDraft) :
    (w.withCurrent f).endFunction.1 = .ok () := by
  refine (w.endFunction_ok_iff f).mpr fun style hstyle e _ => ?_
  rw [h] at hstyle
  cases hstyle
  rcases e with op | ⟨name, callee, viewedAs⟩
  · trivial
  · refine .inr fun indices hindices => ?_
    cases hindices

theorem ended_of_binary (h : w.style? = none) (f : FunctionDraft) :
    (w.withCurrent f).endFunction.1 = .ok () := by
  refine (w.endFunction_ok_iff f).mpr fun style hstyle => ?_
  rw [h] at hstyle
  cases hstyle

theorem Parallel.endFunction (h : Parallel named w w') (f : FunctionDraft) :
    Parallel named (w.withCurrent f).endFunction.2 (w'.withCurrent f).endFunction.2 := by
  refine ⟨?_, ?_, ?_, ?_⟩
  · rw [style?_endFunction, style?_withCurrent, h.text]
  · rw [style?_endFunction, style?_withCurrent, h.binary]
  · rw [current_endFunction_withCurrent, current_endFunction_withCurrent]
  · rw [completed_endFunction (ended_of_text h.text f),
      completed_endFunction (ended_of_binary h.binary f), h.completed]

theorem writeFunction_of_open {current : FunctionDraft} (h : w.current = some current)
    (f : FunctionDraft) : ∃ e, w.writeFunction f = (.error e, w) := by
  unfold ModuleWriter.writeFunction
  split
  · next hbegin =>
    obtain ⟨hclosed, -⟩ := beginFunction_eq_ok.mp hbegin
    cases h.symm.trans hclosed
  · next e _ => exact ⟨e, rfl⟩

theorem writeFunction_of_closed {f : FunctionDraft} (h : w.current = none)
    (hended : (w.withCurrent f).endFunction.1 = .ok ()) :
    w.writeFunction f = (.ok (), (w.withCurrent f).endFunction.2) := by
  rw [ModuleWriter.writeFunction, beginFunction_eq_ok.mpr ⟨h, rfl⟩]
  exact Prod.ext hended rfl

theorem Parallel.writeFunction (h : Parallel named w w') (f : FunctionDraft) :
    Parallel named (w.writeFunction f).2 (w'.writeFunction f).2 ∧
      ((w.writeFunction f).1 = .ok () ↔ (w'.writeFunction f).1 = .ok ()) := by
  rcases hopen : w'.current with _ | current
  · rw [writeFunction_of_closed (h.current.trans hopen) (ended_of_text h.text f),
      writeFunction_of_closed hopen (ended_of_binary h.binary f)]
    exact ⟨h.endFunction f, Iff.rfl⟩
  · obtain ⟨e, hfails⟩ := writeFunction_of_open (h.current.trans hopen) f
    obtain ⟨e', hfails'⟩ := writeFunction_of_open hopen f
    rw [hfails, hfails']
    exact ⟨h, by simp⟩

end Parallel

end ModuleWriter

/-! ### Compiling -/

/-- A body that has no code stops at the same place in every module. -/
theorem ModuleWriter.writeAll_of_no_code {options : Options} {types : TypeRegistry}
    {functions : FunctionRegistry} {body : List Instruction}
    (h : bodyCode options types functions body = none) (f : FunctionDraft) :
    ∃ e f' functions', ∀ w : ModuleWriter, (w.withCurrent f).writeAll options types functions body =
      ⟨.error e, w.withCurrent f', functions'⟩ := by
  induction body generalizing functions f with
  | nil => cases h
  | cons i rest ih =>
    rcases hfirst : i.code options types functions with ⟨e | first, next⟩
    · refine ⟨e.located i.position, f, next, fun w => ?_⟩
      have hwrite : (w.withCurrent f).write i options types functions =
          ⟨.error (e.located i.position), w.withCurrent f, next⟩ := by
        simp [ModuleWriter.write, Instruction.emissions, hfirst, Except.mapError]
      simp only [ModuleWriter.writeAll, hwrite]
    · have hrest : bodyCode options types next rest = none := by
        simp only [bodyCode, hfirst, Option.map_eq_none_iff] at h
        exact h
      obtain ⟨e, f', functions', hwritten⟩ := ih hrest (f.extend first)
      refine ⟨e, f', functions', fun w => ?_⟩
      simp only [ModuleWriter.writeAll, write_of_code w f hfirst, hwritten]

namespace ModuleCompiler

variable {c : ModuleCompiler} {code : FunctionCode}

/-- What compiling a function comes to in any module without an open function: the function is
rejected, it stays open, or it is ended. -/
inductive Outcome (c : ModuleCompiler) (code learned : FunctionCode) : Prop
  | rejected (e : CompileError) :
      (∀ w : ModuleWriter, w.current = none →
        c.compile w code = ⟨.error e, c.marked code.name, w, learned⟩) → Outcome c code learned
  | stuck (e : CompileError) (f : FunctionDraft) (functions : FunctionRegistry) :
      (∀ w : ModuleWriter, w.current = none →
        c.compile w code = ⟨.error e, { c with functions }, w.withCurrent f, learned⟩) →
      Outcome c code learned
  | ended (f : FunctionDraft) (functions : FunctionRegistry) :
      CallsNamed functions
        (code.instructions.filterMap (Instruction.callee? c.options c.types)) f.body →
      (∀ w : ModuleWriter, w.current = none →
        c.compile w code =
          ⟨(w.withCurrent f).endFunction.1.map fun _ => (c.functions.mark code.name false).1,
            { c with functions }, (w.withCurrent f).endFunction.2, learned⟩) → Outcome c code learned

/-- The draft of a function whose slots are resolved, if it is verified. -/
def verified (c : ModuleCompiler) (name : FunctionName) (slots : SlotTable)
    (body : List Instruction) : Except CompileError FunctionDraft := do
  Verifier.verify (verifierContext name slots) body
  (c.marked name).draft (c.functions.mark name false).1 name slots.localTypes

theorem compile_eq_of_resolveAll {params slots : SlotTable} {body : List Instruction}
    (hparams : SlotTable.ofParams code.name.params = .ok params)
    (hresolve : Instruction.resolveAll code.instructions params = (body, slots))
    (w : ModuleWriter) :
    c.compile w code =
      let learned := { code with
        instructions := Verifier.remembered (verifierContext code.name slots) body }
      match c.verified code.name slots body >>= w.beginFunction with
      | .error e => ⟨.error e, c.marked code.name, w, learned⟩
      | .ok w =>
        let written := w.writeAll c.options c.types (c.marked code.name).functions body
        match written.result with
        | .error e => ⟨.error e, { c with functions := written.functions }, written.writer, learned⟩
        | .ok () =>
          ⟨written.writer.endFunction.1.map fun _ => (c.functions.mark code.name false).1,
            { c with functions := written.functions }, written.writer.endFunction.2, learned⟩ := by
  unfold ModuleCompiler.compile verified
  simp only [hparams, hresolve, bind_assoc]
  rfl

/-- **The form of the module decides nothing but whether a function can be ended.** -/
theorem exists_outcome (c : ModuleCompiler) (code : FunctionCode) :
    ∃ learned, (∀ (w : ModuleWriter) (f : FunctionDraft), w.current = some f →
        ∃ e, c.compile w code = ⟨.error e, c.marked code.name, w, learned⟩) ∧
      Outcome c code learned := by
  rcases hparams : SlotTable.ofParams code.name.params with e | params
  · have hcompile : ∀ w, c.compile w code = ⟨.error e, c.marked code.name, w, code⟩ := by
      intro w
      simp only [ModuleCompiler.compile, hparams]
      rfl
    exact ⟨code, fun w _ _ => ⟨e, hcompile w⟩, .rejected e fun w _ => hcompile w⟩
  rcases hresolve : Instruction.resolveAll code.instructions params with ⟨body, slots⟩
  have hcompile := compile_eq_of_resolveAll (c := c) hparams hresolve
  refine ⟨{ code with
    instructions := Verifier.remembered (verifierContext code.name slots) body }, ?_, ?_⟩
  · intro w f hopen
    rcases hbegin : c.verified code.name slots body >>= w.beginFunction with e | opened
    · refine ⟨e, ?_⟩
      rw [hcompile, hbegin]
    · obtain ⟨draft, -, hbegin⟩ := bind_eq_ok.mp hbegin
      obtain ⟨hclosed, -⟩ := ModuleWriter.beginFunction_eq_ok.mp hbegin
      cases hopen.symm.trans hclosed
  rcases hverified : c.verified code.name slots body with e | draft
  · refine .rejected e fun w _ => ?_
    rw [hcompile, hverified]
    rfl
  have hbegin : ∀ w : ModuleWriter, w.current = none →
      c.verified code.name slots body >>= w.beginFunction = .ok (w.withCurrent draft) := by
    intro w hclosed
    exact bind_eq_ok.mpr ⟨draft, hverified, ModuleWriter.beginFunction_eq_ok.mpr ⟨hclosed, rfl⟩⟩
  rcases hbody : bodyCode c.options c.types (c.marked code.name).functions body with
    _ | ⟨emitted, functions⟩
  · obtain ⟨e, f, functions, hwritten⟩ := ModuleWriter.writeAll_of_no_code hbody draft
    refine .stuck e f functions fun w hclosed => ?_
    rw [hcompile, hbegin w hclosed]
    dsimp only
    rw [hwritten]
  · have hcalls := callsNamed_bodyCode hbody
    have hnames := filterMap_callee?_resolveAll code.instructions params c.options c.types
    rw [hresolve] at hnames
    have hempty : draft.body = [] := by
      obtain ⟨⟨⟩, -, hdraft⟩ := bind_eq_ok.mp hverified
      exact (id_of_draft hdraft).2
    refine .ended (draft.extend emitted) functions ?_ fun w hclosed => ?_
    · rw [← hnames, FunctionDraft.extend, hempty, List.nil_append]
      exact hcalls
    · rw [hcompile, hbegin w hclosed]
      dsimp only
      rw [ModuleWriter.writeAll_of_bodyCode w draft hbody]

end ModuleCompiler

/-! ### Finishing -/

theorem CallStyle.writes_ofRegistry_iff {named : Bool} {r : FunctionRegistry} {e : Emission} :
    CallStyle.Writes ⟨named, some (.ofRegistry r)⟩ e ↔ named = true ∨ e.CalleeBelow r.count := by
  rcases e with op | ⟨name, callee, viewedAs⟩
  · exact ⟨fun _ => .inr trivial, fun _ => trivial⟩
  · have hknown : (∃ index, (ModuleIndices.ofRegistry r).get callee = .ok index) ↔
        callee < r.count := by
      simp only [FunctionRegistry.get_ofRegistry, FunctionRegistry.indexOf?,
        Option.map_eq_some_iff]
      constructor
      · rintro ⟨index, entry, hentry, -⟩
        exact (List.getElem?_eq_some_iff.mp hentry).1
      · intro hlt
        exact ⟨_, _, List.getElem?_eq_getElem hlt, rfl⟩
    refine or_congr_right ?_
    rw [Emission.CalleeBelow, ← hknown]
    exact ⟨fun h => h _ rfl, fun h indices hindices => Option.some.inj hindices ▸ h⟩

/-- A text without an open function is finished if its functions and their callees are known. -/
theorem TextModule.finish_of_calleeBelow {m : TextModule} {r : FunctionRegistry}
    (hcurrent : m.current = none) (hknown : ∀ f ∈ m.functions, f.id < r.count)
    (hcallees : ∀ f ∈ m.functions, ∀ e ∈ f.body, e.CalleeBelow r.count) :
    ∃ functions output, m.finish r =
      (.ok (), { m with functions, indices := some (.ofRegistry r), output }) := by
  obtain ⟨encoded, hencoded⟩ := exists_encodes hknown hcallees
  have hkeyed := indexed_of_encodes hencoded
  let sorted := (((m.functions.zip encoded).map fun p => (p.2.index, p.1)).mergeSort
    fun f g => f.1 ≤ g.1).map Prod.snd
  have hmem : ∀ f ∈ sorted, f ∈ m.functions := by
    intro f hf
    obtain ⟨p, hp, rfl⟩ := List.mem_map.mp hf
    obtain ⟨q, hq, rfl⟩ := List.mem_map.mp ((List.mergeSort_perm _ _).mem_iff.mp hp)
    exact (List.of_mem_zip hq).1
  have htexts : ∀ f ∈ sorted, ∃ text,
      f.text ⟨m.debugNames, some (.ofRegistry r)⟩ = .ok text := by
    intro f hf
    refine (f.exists_text_iff _).mpr fun e he => ?_
    exact CallStyle.writes_ofRegistry_iff.mpr (.inr (hcallees f (hmem f hf) e he))
  obtain ⟨texts, hwritten⟩ := exists_forall₂ htexts
  refine ⟨sorted, String.join texts, ?_⟩
  simp only [TextModule.finish, hcurrent, Option.isSome_none, Bool.false_eq_true, if_false, hkeyed,
    TextModule.style]
  rw [mapM_eq_ok.mpr hwritten]

theorem BinaryModule.current_finish (m : BinaryModule) (r : FunctionRegistry) :
    (m.finish r).2.current = m.current := by
  unfold BinaryModule.finish
  split
  · rfl
  · dsimp only
    split <;> rfl

namespace ModuleWriter

variable {named : Bool} {w w' : ModuleWriter} {r : FunctionRegistry}

theorem exists_text_of_style? {style : CallStyle} (h : w.style? = some style) :
    ∃ m, w = .text m ∧ m.style = style := by
  cases w with
  | text m => exact ⟨m, rfl, Option.some.inj h⟩
  | binary m => cases h

theorem exists_binary_of_style? (h : w.style? = none) : ∃ m, w = .binary m := by
  cases w with
  | text m => cases h
  | binary m => exact ⟨m, rfl⟩

theorem nodup_of_finish_binary {m : BinaryModule}
    (h : (ModuleWriter.binary m).finish r = (.ok (), w)) :
    (m.buffered.map FunctionDraft.id).Nodup := by
  have hok : (m.finish r).1 = .ok () := congrArg Prod.fst h
  obtain ⟨-, encoded, hencoded, hrepeated, -⟩ := BinaryModule.finish_eq_ok (Prod.ext hok rfl)
  have hindices := BinaryModule.nodup_of_repeated? hrepeated
  rw [List.map_append] at hindices
  exact nodup_id_of_encodes hencoded (List.nodup_append'.mp hindices).2.1

/-- What the last step of finishing does to both modules: it fails for an open function, and
otherwise the text is finished, and the binary module if no function was written twice. -/
inductive Parallel.Finishes (named : Bool) (w w' : ModuleWriter) (r : FunctionRegistry) : Prop
  | refused {e e' : CompileError} : w.finish r = (.error e, w) → w'.finish r = (.error e', w') →
      Finishes named w w' r
  | closed (last : ModuleWriter) : w.finish r = (.ok (), last) →
      last.style? = some ⟨named, some (.ofRegistry r)⟩ → last.current = (w'.finish r).2.current →
      (w'.finish r).2.style? = none →
      ((w'.completed.map FunctionDraft.id).Nodup → (w'.finish r).1 = .ok ()) →
      Finishes named w w' r

theorem Parallel.finish (h : Parallel named w w') (hdrafting : w'.Drafting r.count) :
    Parallel.Finishes named w w' r := by
  obtain ⟨m, rfl, hstyle⟩ := exists_text_of_style? h.text
  obtain ⟨m', rfl⟩ := exists_binary_of_style? h.binary
  have hcurrent : m.current = m'.current := h.current
  have hcompleted : m.functions = m'.buffered := h.completed
  rcases hopen : m'.current with _ | f
  · have hknown : ∀ f ∈ m'.buffered, f.id < r.count := fun f hf => (hdrafting.buffered f hf).1
    have hcallees : ∀ f ∈ m'.buffered, ∀ e ∈ f.body, e.CalleeBelow r.count :=
      fun f hf e he => ((hdrafting.buffered f hf).2 e he).calleeBelow
    obtain ⟨functions, output, hfinish⟩ := TextModule.finish_of_calleeBelow
      (m := m) (hcurrent.trans hopen) (hcompleted ▸ hknown) (hcompleted ▸ hcallees)
    refine .closed (.text { m with functions, indices := some (.ofRegistry r), output }) ?_ ?_ ?_
      rfl ?_
    · simp only [ModuleWriter.finish, hfinish]
    · have hnamed : m.debugNames = named := congrArg CallStyle.named hstyle
      rw [style?, TextModule.style, hnamed]
    · exact hcurrent.trans (BinaryModule.current_finish m' r).symm
    · intro hids
      exact (BinaryModule.finish_ok_iff hopen hdrafting.functions hids hknown).mpr hcallees
  · have htext : (ModuleWriter.text m).finish r =
        (.error (.ofFault (.finishedWhileOpen none)), .text m) := by
      simp [ModuleWriter.finish, TextModule.finish, hcurrent, hopen]
    have hbinary : (ModuleWriter.binary m').finish r =
        (.error (.ofFault (.finishedWhileOpen (some f.name))), .binary m') := by
      simp [ModuleWriter.finish, BinaryModule.finish, hopen]
    exact .refused htext hbinary

end ModuleWriter

namespace ModuleCompiler

variable {c : ModuleCompiler} {named : Bool} {w w' : ModuleWriter}

/-- Both modules take the same code functions. -/
theorem parallel_writeCodeFunctions (h : ModuleWriter.Parallel named w w')
    (functions : List (FunctionEntry × List CodeOp)) :
    ModuleWriter.Parallel named (c.writeCodeFunctions w functions).2
        (c.writeCodeFunctions w' functions).2 ∧
      ((c.writeCodeFunctions w functions).1 = .ok () ↔
        (c.writeCodeFunctions w' functions).1 = .ok ()) := by
  induction functions generalizing w w' with
  | nil => exact ⟨h, Iff.rfl⟩
  | cons head rest ih =>
    obtain ⟨entry, ops⟩ := head
    rcases hdraft : c.draft entry.id entry.name [] with e | f
    · simp only [writeCodeFunctions, hdraft]
      exact ⟨h, by simp⟩
    · obtain ⟨hnext, hboth⟩ := h.writeFunction { f with body := ops.map .op }
      simp only [writeCodeFunctions, hdraft]
      rcases hw : w.writeFunction { f with body := ops.map .op } with ⟨e | ⟨⟩, next⟩ <;>
        rcases hw' : w'.writeFunction { f with body := ops.map .op } with ⟨e' | ⟨⟩, next'⟩ <;>
        rw [hw, hw'] at hnext hboth
      · exact ⟨hnext, hboth⟩
      · cases hboth.mpr rfl
      · cases hboth.mp rfl
      · exact ih hnext

theorem map_id_writeCodeFunctions {functions : List (FunctionEntry × List CodeOp)}
    (h : c.writeCodeFunctions w functions = (.ok (), w')) :
    w'.completed.map FunctionDraft.id =
      w.completed.map FunctionDraft.id ++ functions.map fun f => f.1.id := by
  induction functions generalizing w with
  | nil =>
    cases h
    exact (List.append_nil _).symm
  | cons head rest ih =>
    obtain ⟨entry, ops⟩ := head
    unfold ModuleCompiler.writeCodeFunctions at h
    split at h
    · cases h
    · next draft hdraft =>
      split at h
      · next next hnext =>
        obtain ⟨hcompleted, -⟩ := writeFunction_eq_ok hnext
        rw [ih h, hcompleted, List.map_append, List.append_assoc, List.map_cons, List.map_cons,
          List.map_nil, (id_of_draft hdraft).1, List.singleton_append]
      · cases h

theorem style?_writeCodeFunctions (functions : List (FunctionEntry × List CodeOp)) :
    (c.writeCodeFunctions w functions).2.style? = w.style? := by
  induction functions generalizing w with
  | nil => rfl
  | cons head rest ih =>
    obtain ⟨entry, ops⟩ := head
    unfold ModuleCompiler.writeCodeFunctions
    split
    · rfl
    · next f hf =>
      have hstyle := ModuleWriter.style?_writeFunction { f with body := ops.map .op } w
      split
      · next next hnext =>
        rw [hnext] at hstyle
        rw [ih, hstyle]
      · next e next hnext =>
        rw [hnext] at hstyle
        exact hstyle

/-- The registry of a module that is finished. -/
def Finished.functions? (f : Finished) : Option FunctionRegistry :=
  match f.result with
  | .ok () => some f.compiler.functions
  | .error _ => none

theorem Finished.eq_of_functions? (f : Finished) {r : FunctionRegistry} (h : f.functions? = some r) :
    r = f.compiler.functions := by
  unfold Finished.functions? at h
  split at h
  · exact (Option.some.inj h).symm
  · cases h

/-- The numbers of the functions that a module has when it is finished: those that are complete, and
those whose code the registry holds. -/
def writtenIds (c : ModuleCompiler) (w : ModuleWriter) : List Nat :=
  w.completed.map FunctionDraft.id ++
    (c.finish w).compiler.functions.codeFunctions.map fun f => f.1.id

/-- In a binary module that is finished no function was written twice. -/
theorem nodup_writtenIds (hbinary : w.style? = none) (h : (c.finish w).result = .ok ()) :
    (c.writtenIds w).Nodup := by
  rcases hfinish : c.finish w with ⟨result, c', w'⟩
  rw [hfinish] at h
  obtain rfl : result = .ok () := h
  obtain ⟨stages, rfl, -⟩ := finish_eq_ok hfinish
  have hstyle : stages.written.style? = none := by
    have hkept := style?_writeCodeFunctions
      (c := { c with strings := stages.strings, functions := stages.functions })
      (w := w.withData stages.data) stages.functions.codeFunctions
    rwa [stages.writeCodeFunctions, ModuleWriter.style?_withData, hbinary] at hkept
  obtain ⟨m, hm⟩ := ModuleWriter.exists_binary_of_style? hstyle
  have hids := ModuleWriter.nodup_of_finish_binary (m := m) (hm ▸ stages.finish)
  have hwritten := map_id_writeCodeFunctions stages.writeCodeFunctions
  rw [ModuleWriter.completed_withData] at hwritten
  rw [writtenIds, hfinish, ← hwritten, hm]
  exact hids

/-- What finishing a text and a binary module with the same functions leaves. -/
structure FinishesAlike (named : Bool) (c : ModuleCompiler) (w w' : ModuleWriter) : Prop where
  compiler : (c.finish w).compiler = (c.finish w').compiler
  text : (c.finish w).writer.style? =
    some ⟨named, (c.finish w).functions?.map ModuleIndices.ofRegistry⟩
  binary : (c.finish w').writer.style? = none
  current : (c.finish w).writer.current = (c.finish w').writer.current
  ok : (c.finish w').result = .ok () → (c.finish w).result = .ok ()
  ok_of_nodup : (c.writtenIds w').Nodup → (c.finish w).result = .ok () →
    (c.finish w').result = .ok ()

theorem finishesAlike_of_error (h : ModuleWriter.Parallel named w w') {after : ModuleCompiler}
    {before before' : ModuleWriter} {e e' : CompileError}
    (hfails : c.finish before = ⟨.error e, after, w⟩)
    (hfails' : c.finish before' = ⟨.error e', after, w'⟩) :
    FinishesAlike named c before before' := by
  refine ⟨?_, ?_, ?_, ?_, ?_, ?_⟩
  · rw [hfails, hfails']
  · rw [hfails]
    exact h.text
  · rw [hfails']
    exact h.binary
  · rw [hfails, hfails']
    exact h.current
  · intro hok
    rw [hfails'] at hok
    cases hok
  · intro _ hok
    rw [hfails] at hok
    cases hok

/-- **A text and a binary module with the same functions are finished alike.** -/
theorem finishesAlike_of_parallel (h : ModuleWriter.Parallel named w w') (hdata : w.data = w'.data)
    (hdrafting : Drafting c w') : FinishesAlike named c w w' := by
  -- both modules bring the same data, so up to the code functions the stages depend on `c` only
  rcases hfinalize : c.strings.finalize w'.data with ⟨e | data, strings⟩
  · have hfails : c.finish w = ⟨.error e, { c with strings }, w⟩ := by
      simp only [ModuleCompiler.finish, hdata, hfinalize]
    have hfails' : c.finish w' = ⟨.error e, { c with strings }, w'⟩ := by
      simp only [ModuleCompiler.finish, hfinalize]
    exact finishesAlike_of_error h hfails hfails'
  rcases hpatch : ({ c with strings } : ModuleCompiler).patchOffset with e | functions
  · have hfails : c.finish w = ⟨.error e, { c with strings }, w.withData data⟩ := by
      simp only [ModuleCompiler.finish, hdata, hfinalize, hpatch]
    have hfails' : c.finish w' = ⟨.error e, { c with strings }, w'.withData data⟩ := by
      simp only [ModuleCompiler.finish, hfinalize, hpatch]
    exact finishesAlike_of_error (h.withData data) hfails hfails'
  obtain ⟨hparallel, hboth⟩ := parallel_writeCodeFunctions
    (c := { c with strings, functions }) (h.withData data) functions.codeFunctions
  have hadvances := advances_patchOffset hpatch
  have hcode : ∀ e ops, (e, ops) ∈ functions.codeFunctions →
      e.id < functions.count ∧ ∀ op ∈ ops, op.isCallFree = true :=
    fun e ops he => (hadvances.sound hdrafting.sound).codeFunctions he
  have hdrafting' := Drafting.writeCodeFunctions (c := { c with strings, functions })
    ((hdrafting.writer.mono hadvances.count_le).withData data) hcode
  rcases hwritten : writeCodeFunctions { c with strings, functions } (w.withData data)
    functions.codeFunctions with ⟨e | ⟨⟩, last⟩ <;>
  rcases hwritten' : writeCodeFunctions { c with strings, functions } (w'.withData data)
    functions.codeFunctions with ⟨e' | ⟨⟩, last'⟩ <;>
  rw [hwritten, hwritten'] at hparallel hboth <;>
  rw [hwritten'] at hdrafting'
  · have hfails : c.finish w = ⟨.error e, { c with strings, functions }, last⟩ := by
      simp only [ModuleCompiler.finish, hdata, hfinalize, hpatch, hwritten]
    have hfails' : c.finish w' = ⟨.error e', { c with strings, functions }, last'⟩ := by
      simp only [ModuleCompiler.finish, hfinalize, hpatch, hwritten']
    exact finishesAlike_of_error hparallel hfails hfails'
  · cases hboth.mpr rfl
  · cases hboth.mp rfl
  · have hfinish : c.finish w = ⟨(last.finish functions).1, { c with strings, functions },
        (last.finish functions).2⟩ := by
      simp only [ModuleCompiler.finish, hdata, hfinalize, hpatch, hwritten]
    have hfinish' : c.finish w' = ⟨(last'.finish functions).1, { c with strings, functions },
        (last'.finish functions).2⟩ := by
      simp only [ModuleCompiler.finish, hfinalize, hpatch, hwritten']
    cases hparallel.finish hdrafting' with
    | refused hfails hfails' =>
      rw [hfails] at hfinish
      rw [hfails'] at hfinish'
      exact finishesAlike_of_error hparallel hfinish hfinish'
    | closed done hdone htext hcurrent hbinary hnodup =>
      rw [hdone] at hfinish
      refine ⟨?_, ?_, ?_, ?_, ?_, ?_⟩
      · rw [hfinish, hfinish']
      · rw [hfinish]
        exact htext
      · rw [hfinish']
        exact hbinary
      · rw [hfinish, hfinish']
        exact hcurrent
      · intro _
        rw [hfinish]
      · intro hids _
        rw [hfinish']
        refine hnodup ?_
        rw [map_id_writeCodeFunctions hwritten', ModuleWriter.completed_withData]
        rw [writtenIds, hfinish'] at hids
        exact hids

end ModuleCompiler

end WasmBackend
