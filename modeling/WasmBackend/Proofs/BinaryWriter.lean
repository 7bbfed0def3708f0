import WasmBackend.Module.BinaryWriter
import WasmBackend.Proofs.BinaryModule

/-! # Two writers of one module

A `BinaryModule` keeps drafts and encodes them when it is finished. A `BinaryWriter` encodes code when
it is written, and uses one buffer and one table of scratch locals for all functions. The two cannot
be told apart: they give the same answers to any calls and have the same finished functions
(`run_eq_drafts`). What is left in the buffer between two functions does not matter, because it is
cleared when a function begins.

* `Represents`: the drafts that the bytes of a writer stand for, kept by every call
  (`Represents.serve`);
* `mem_buffered_of_written`: a function is buffered with all its code, and stays there. -/

namespace WasmBackend

/-- The draft of a function with some code. -/
def OpenFunction.draft (f : OpenFunction) (code : List Emission) : FunctionDraft :=
  { id := f.id, name := f.name, params := f.params, result := f.result, locals := f.locals
    body := code }

namespace BinaryWriter

/-! ### Calls -/

/-- What a writer can be asked for. -/
inductive Call
  | beginFunction (f : OpenFunction)
  | write (e : Emission)
  | endFunction
  | setData (data : DataSection)
  | finish (registry : FunctionRegistry)

/-- The answer of an operation, and what it leaves of a state. -/
def reply {σ : Type} (s : σ) : Except CompileError σ → Except CompileError Unit × σ
  | .ok next => (.ok (), next)
  | .error e => (.error e, s)

/-- The answer to a call, and the writer after it. -/
def serve (w : BinaryWriter) : Call → Except CompileError Unit × BinaryWriter
  | .beginFunction f => reply w (w.beginFunction f)
  | .write e => reply w (w.write e)
  | .endFunction => reply w w.endFunction
  | .setData data => (.ok (), { w with data })
  | .finish registry => w.finish registry

/-- The answer of a module of drafts to the same call, and the module after it. -/
def serveDrafts (m : BinaryModule) : Call → Except CompileError Unit × BinaryModule
  | .beginFunction f => reply m (m.beginFunction (f.draft []))
  | .write e => reply m (m.emit [e])
  | .endFunction => reply m m.endFunction
  | .setData data => (.ok (), { m with data })
  | .finish registry => m.finish registry

/-- The answers to some calls, and what is left after them. -/
def runWith {σ : Type} (serve : σ → Call → Except CompileError Unit × σ) (s : σ) :
    List Call → List (Except CompileError Unit) × σ
  | [] => ([], s)
  | c :: rest =>
    let (answer, s) := serve s c
    let (answers, s) := runWith serve s rest
    (answer :: answers, s)

/-! ### Bytes and drafts -/

/-- The bytes of a writer stand for the drafts of a module. Nothing is said of the buffer when no
function is open. -/
structure Represents (w : BinaryWriter) (m : BinaryModule) : Prop where
  buffered : w.buffered = m.buffered.map FunctionDraft.buffer
  functions : w.functions = m.functions
  importCount : w.importCount = m.importCount
  data : w.data = m.data
  current : w.current = m.current.map FunctionDraft.opened
  code : ∀ f, m.current = some f → (w.code, w.scratch) = f.written

theorem represents_empty : Represents {} {} := ⟨rfl, rfl, rfl, rfl, rfl, by simp⟩

theorem written_extend (f : FunctionDraft) (e : Emission) :
    (f.extend [e]).written = CodeBuffer.write f.written e := by
  simp only [FunctionDraft.written, FunctionDraft.extend, List.foldl_append]
  rfl

section Represents

variable {w : BinaryWriter} {m : BinaryModule}

theorem Represents.beginFunction (h : Represents w m) (f : OpenFunction) :
    (w.serve (.beginFunction f)).1 = (serveDrafts m (.beginFunction f)).1 ∧
      Represents (w.serve (.beginFunction f)).2 (serveDrafts m (.beginFunction f)).2 := by
  have hcurrent := h.current
  simp only [serve, serveDrafts, BinaryWriter.beginFunction, BinaryModule.beginFunction]
  cases hm : m.current with
  | none =>
    rw [hm] at hcurrent
    rw [hcurrent]
    refine ⟨rfl, h.buffered, h.functions, h.importCount, h.data, rfl, ?_⟩
    rintro g ⟨⟩
    rfl
  | some g =>
    rw [hm] at hcurrent
    rw [hcurrent]
    exact ⟨rfl, h⟩

theorem Represents.write (h : Represents w m) (e : Emission) :
    (w.serve (.write e)).1 = (serveDrafts m (.write e)).1 ∧
      Represents (w.serve (.write e)).2 (serveDrafts m (.write e)).2 := by
  have hcurrent := h.current
  simp only [serve, serveDrafts, BinaryWriter.write, BinaryModule.emit]
  cases hm : m.current with
  | none =>
    rw [hm] at hcurrent
    rw [hcurrent]
    exact ⟨rfl, h⟩
  | some f =>
    rw [hm] at hcurrent
    rw [hcurrent]
    refine ⟨rfl, h.buffered, h.functions, h.importCount, h.data, rfl, ?_⟩
    rintro g ⟨⟩
    rw [written_extend, ← h.code f hm]
    rfl

theorem Represents.endFunction (h : Represents w m) :
    (w.serve .endFunction).1 = (serveDrafts m .endFunction).1 ∧
      Represents (w.serve .endFunction).2 (serveDrafts m .endFunction).2 := by
  have hcurrent := h.current
  simp only [serve, serveDrafts, BinaryWriter.endFunction, BinaryModule.endFunction]
  cases hm : m.current with
  | none =>
    rw [hm] at hcurrent
    rw [hcurrent]
    exact ⟨rfl, h⟩
  | some f =>
    rw [hm] at hcurrent
    rw [hcurrent]
    have hclosed : f.opened.close w.code w.scratch = f.buffer := by
      rw [FunctionDraft.buffer, ← h.code f hm]
    refine ⟨rfl, ?_, h.functions, h.importCount, h.data, rfl, by simp [reply]⟩
    simp [reply, h.buffered, hclosed]

theorem Represents.finish (h : Represents w m) (registry : FunctionRegistry) :
    (w.finish registry).1 = (m.finish registry).1 ∧
      Represents (w.finish registry).2 (m.finish registry).2 := by
  have hcurrent := h.current
  simp only [BinaryWriter.finish, BinaryModule.finish, ← h.buffered, ← h.functions]
  cases hm : m.current with
  | some f =>
    rw [hm] at hcurrent
    rw [hcurrent]
    exact ⟨rfl, h⟩
  | none =>
    rw [hm] at hcurrent
    rw [hcurrent]
    rcases BinaryModule.finishFunctions (.ofRegistry registry) w.functions w.buffered with
      ⟨e | ⟨⟩, functions⟩
    · exact ⟨rfl, rfl, rfl, h.importCount, h.data, rfl, by simp⟩
    · exact ⟨rfl, rfl, rfl, rfl, h.data, rfl, by simp⟩

/-- **What one call preserves.** -/
theorem Represents.serve (h : Represents w m) (c : Call) :
    (w.serve c).1 = (serveDrafts m c).1 ∧ Represents (w.serve c).2 (serveDrafts m c).2 := by
  cases c with
  | beginFunction f => exact h.beginFunction f
  | write e => exact h.write e
  | endFunction => exact h.endFunction
  | setData data => exact ⟨rfl, h.buffered, h.functions, h.importCount, rfl, h.current, h.code⟩
  | finish registry => exact h.finish registry

theorem Represents.run (h : Represents w m) (calls : List Call) :
    (runWith BinaryWriter.serve w calls).1 = (runWith serveDrafts m calls).1 ∧
      Represents (runWith BinaryWriter.serve w calls).2 (runWith serveDrafts m calls).2 := by
  induction calls generalizing w m with
  | nil => exact ⟨rfl, h⟩
  | cons c rest ih =>
    obtain ⟨hanswer, hafter⟩ := h.serve c
    obtain ⟨hanswers, hlast⟩ := ih hafter
    simp only [runWith]
    exact ⟨by rw [hanswer, hanswers], hlast⟩

end Represents

/-- **The two writers cannot be told apart.** -/
theorem run_eq_drafts (calls : List Call) :
    let writer := runWith serve {} calls
    let drafts := runWith serveDrafts {} calls
    writer.1 = drafts.1 ∧ writer.2.functions = drafts.2.functions ∧
      writer.2.importCount = drafts.2.importCount ∧ writer.2.data = drafts.2.data ∧
      (writer.2.buffered = [] ↔ drafts.2.buffered = []) := by
  obtain ⟨hanswers, h⟩ := represents_empty.run calls
  refine ⟨hanswers, h.functions, h.importCount, h.data, ?_⟩
  rw [h.buffered, List.map_eq_nil_iff]

/-! ### Functions that were written -/

section Written

variable {w w' : BinaryWriter} {f : OpenFunction}

theorem beginFunction_eq_ok (h : w.beginFunction f = .ok w') :
    w' = { w with current := some f, code := {}, scratch := f.scratch } := by
  unfold BinaryWriter.beginFunction at h
  split at h
  · cases h
  · cases h
    rfl

theorem writeAll_eq_ok {code : List Emission} (h : code.foldlM BinaryWriter.write w = .ok w')
    (hcurrent : w.current = some f) :
    w'.current = some f ∧
      (w'.code, w'.scratch) = code.foldl CodeBuffer.write (w.code, w.scratch) := by
  induction code generalizing w with
  | nil =>
    cases h
    exact ⟨hcurrent, rfl⟩
  | cons e rest ih =>
    rw [List.foldlM_cons] at h
    obtain ⟨w₁, hwrite, hrest⟩ := bind_eq_ok.mp h
    simp only [BinaryWriter.write, hcurrent, Except.ok.injEq] at hwrite
    subst hwrite
    exact ih hrest rfl

theorem mem_buffered_of_written {w₁ w₂ : BinaryWriter} {code : List Emission}
    (hbegin : w.beginFunction f = .ok w₁) (hwrite : code.foldlM BinaryWriter.write w₁ = .ok w₂)
    (hend : w₂.endFunction = .ok w') : (f.draft code).buffer ∈ w'.buffered := by
  obtain rfl := beginFunction_eq_ok hbegin
  obtain ⟨hcurrent, hcode⟩ := writeAll_eq_ok hwrite rfl
  have hclosed : f.close w₂.code w₂.scratch = (f.draft code).buffer := by
    have hwritten : (f.draft code).written = (w₂.code, w₂.scratch) := hcode.symm
    rw [FunctionDraft.buffer, hwritten]
    rfl
  simp only [BinaryWriter.endFunction, hcurrent, Except.ok.injEq] at hend
  subst hend
  simp [hclosed]

theorem buffered_subset_serve (w : BinaryWriter) {c : Call}
    (hc : ∀ registry, c ≠ .finish registry) : w.buffered ⊆ (w.serve c).2.buffered := by
  cases c with
  | beginFunction f =>
    unfold BinaryWriter.serve BinaryWriter.beginFunction
    cases w.current <;> exact fun _ => id
  | write e =>
    unfold BinaryWriter.serve BinaryWriter.write
    cases w.current <;> exact fun _ => id
  | endFunction =>
    unfold BinaryWriter.serve BinaryWriter.endFunction
    cases w.current with
    | none => exact fun _ => id
    | some f => exact List.subset_append_left _ _
  | setData data => exact fun _ => id
  | finish registry => exact absurd rfl (hc registry)

theorem buffered_subset_run (w : BinaryWriter) {calls : List Call}
    (hcalls : ∀ c ∈ calls, ∀ registry, c ≠ .finish registry) :
    w.buffered ⊆ (runWith BinaryWriter.serve w calls).2.buffered := by
  induction calls generalizing w with
  | nil => exact fun _ => id
  | cons c rest ih =>
    have hfirst := buffered_subset_serve w (hcalls c List.mem_cons_self)
    have hrest := ih (w.serve c).2 fun c' hc' => hcalls c' (List.mem_cons_of_mem _ hc')
    exact List.Subset.trans hfirst hrest

theorem resolve_of_mem_buffered {registry : FunctionRegistry}
    (h : w.finish registry = (.ok (), w')) {b : BufferedFunction} (hb : b ∈ w.buffered) :
    ∃ e ∈ w'.functions, b.resolve (.ofRegistry registry) = .ok e := by
  unfold BinaryWriter.finish at h
  split at h
  · cases h
  · rcases hfinished : BinaryModule.finishFunctions (.ofRegistry registry) w.functions w.buffered with
      ⟨e | ⟨⟩, functions⟩
    · simp only [hfinished] at h
      cases h
    · simp only [hfinished] at h
      cases h
      obtain ⟨others, hothers, -, rfl⟩ := BinaryModule.finishFunctions_eq_ok hfinished
      obtain ⟨e, he, hresolve⟩ :=
        exists_right_of_mem (BufferedFunction.resolveAll_eq_ok.mp hothers) hb
      exact ⟨e, BinaryModule.mem_inOrder.mpr (List.mem_append_right _ he), hresolve⟩

end Written

end BinaryWriter

end WasmBackend
