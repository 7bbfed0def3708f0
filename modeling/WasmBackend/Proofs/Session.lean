import Mathlib.Data.List.Induction
import WasmBackend.Proofs.CompiledFunction
import WasmBackend.Proofs.PoolRuns

/-! # Sessions

A session is a module compiler together with one writer. It serves requests one after the other, also
those that fail, and is finished once at the end.

* `run_of_session`: every session is a run of the compiler.
* `Run.keeps`: functions and strings keep their numbers, and data keeps its place.
* `finish_eq_ok`: what finishing a module does when it succeeds, stage by stage. -/

namespace WasmBackend

/-- What can be asked of a module compiler before its module is finished. -/
inductive Request
  | registerStruct (name : String) (fields : List OperandType)
  | internArray (element : OperandType)
  | stringConstant (value : String) (position : CodePosition)
  | appendData (bytes : List UInt8)
  | compile (code : FunctionCode)

/-- A module compiler and the writer of its module. -/
structure Session where
  compiler : ModuleCompiler
  writer : ModuleWriter

namespace Session

/-- What is left after a request. A request that fails leaves what it did before the failure. -/
def serve (s : Session) : Request → Session
  | .registerStruct name fields =>
    { s with compiler.types := (s.compiler.types.registerStruct name fields).2 }
  | .internArray element =>
    { s with compiler.types := (s.compiler.types.internArray element).2 }
  | .stringConstant value position =>
    { s with compiler := (s.compiler.stringConstant value position).2 }
  | .appendData bytes => { s with writer := s.writer.withData (s.writer.data.append bytes) }
  | .compile code =>
    let compiled := s.compiler.compile s.writer code
    ⟨compiled.compiler, compiled.writer⟩

/-- What is left after some requests. -/
def run (s : Session) (requests : List Request) : Session := requests.foldl serve s

/-- Finishes the module of the session. -/
def finish (s : Session) : ModuleCompiler.Finished := s.compiler.finish s.writer

@[simp]
theorem run_nil (s : Session) : s.run [] = s := rfl

theorem run_append (s : Session) (before after : List Request) :
    s.run (before ++ after) = (s.run before).run after :=
  List.foldl_append

theorem run_concat (s : Session) (before : List Request) (q : Request) :
    s.run (before ++ [q]) = (s.run before).serve q := by
  rw [run_append]
  rfl

/-- What a request can do: it compiles a function, brings data, or is one to the compiler alone. -/
theorem serve_cases (c : ModuleCompiler) (q : Request) :
    (∃ code, q = .compile code) ∨ (∃ bytes, q = .appendData bytes) ∨
      ∃ c', (∀ code, q ≠ .compile code) ∧ ∀ w, serve ⟨c, w⟩ q = ⟨c', w⟩ := by
  cases q with
  | compile code => exact .inl ⟨code, rfl⟩
  | appendData bytes => exact .inr (.inl ⟨bytes, rfl⟩)
  | registerStruct name fields =>
    refine .inr (.inr ⟨{ c with types := (c.types.registerStruct name fields).2 }, ?_, fun w => rfl⟩)
    intro code h
    cases h
  | internArray element =>
    refine .inr (.inr ⟨{ c with types := (c.types.internArray element).2 }, ?_, fun w => rfl⟩)
    intro code h
    cases h
  | stringConstant value position =>
    refine .inr (.inr ⟨(c.stringConstant value position).2, ?_, fun w => rfl⟩)
    intro code h
    cases h

theorem serve_of_stages {s : Session} {code : FunctionCode}
    (stages : ModuleCompiler.Stages s.compiler s.writer code) :
    s.serve (.compile code) = ⟨{ s.compiler with functions := stages.functions },
      (s.writer.withCurrent (stages.draft.extend stages.emitted)).endFunction.2⟩ := by
  simp only [serve, stages.compile_eq]

/-- Every session is a run of the compiler. -/
theorem run_of_session (s : Session) (requests : List Request) :
    ModuleCompiler.Run s.compiler s.writer (s.run requests).compiler (s.run requests).writer := by
  induction requests using List.reverseRecOn with
  | nil => exact .refl
  | append_singleton before q ih =>
    rw [run_concat]
    cases q with
    | registerStruct name fields => exact ih.registerStruct name fields
    | internArray element =>
      rcases hintern : (s.run before).compiler.types.internArray element with ⟨e | id, types⟩
      · obtain rfl := TypeRegistry.internArray_eq_error hintern
        simp only [serve, hintern]
        exact ih
      · simp only [serve, hintern]
        exact ih.internArray hintern
    | stringConstant value position =>
      rcases hintern : (s.run before).compiler.strings.intern value with ⟨e | id, strings⟩
      · obtain rfl := StringPool.intern_eq_error hintern
        simp only [serve, ModuleCompiler.stringConstant, hintern]
        exact ih
      · simp only [serve, ModuleCompiler.stringConstant, hintern]
        exact ih.internString hintern
    | appendData bytes => exact ih.appendData bytes
    | compile code => exact ih.compile code

end Session

namespace ModuleWriter

@[simp]
theorem data_withData (data : DataSection) (w : ModuleWriter) : (w.withData data).data = data := by
  cases w <;> rfl

@[simp]
theorem completed_withData (data : DataSection) (w : ModuleWriter) :
    (w.withData data).completed = w.completed := by
  cases w <;> rfl

end ModuleWriter

/-! ### What a run keeps -/

namespace ModuleCompiler

theorem extends_writeAll (w : ModuleWriter) (body : List Instruction) (options : Options)
    (types : TypeRegistry) (functions : FunctionRegistry) :
    functions.Extends (w.writeAll options types functions body).functions := by
  induction body generalizing w functions with
  | nil => exact .refl _
  | cons i rest ih =>
    have hfirst : functions.Extends (w.write i options types functions).functions := by
      have hemissions := extends_emissions i options types functions
      unfold ModuleWriter.write
      split
      · next hcode =>
        rw [hcode] at hemissions
        exact hemissions
      · next hcode =>
        rw [hcode] at hemissions
        split <;> exact hemissions
    simp only [ModuleWriter.writeAll]
    split
    · exact hfirst.trans (ih _ _)
    · exact hfirst

theorem compiler_compile (c : ModuleCompiler) (w : ModuleWriter) (code : FunctionCode) :
    ∃ functions, c.functions.Extends functions ∧
      (c.compile w code).compiler = { c with functions } := by
  have hmark := c.functions.extends_mark code.name false
  rcases c.compile_cases w code with ⟨hc, -, -⟩ | ⟨f, body, written, hbegun⟩
  · exact ⟨_, hmark, hc⟩
  · obtain ⟨w', -, rfl⟩ := hbegun.writes
    exact ⟨_, hmark.trans (extends_writeAll w' body _ _ _), hbegun.compiler⟩

/-- What stays true while requests are served. -/
structure Keeps (c : ModuleCompiler) (w : ModuleWriter) (c' : ModuleCompiler) (w' : ModuleWriter) :
    Prop where
  options : c'.options = c.options
  functions : c.functions.Extends c'.functions
  strings : c.strings.strings <+: c'.strings.strings
  finalized : c'.strings.finalized = c.strings.finalized
  baseOffset : c'.strings.baseOffset = c.strings.baseOffset
  data : w.data.bytes <+: w'.data.bytes

/-- **A run keeps what it has:** functions and strings with their numbers, and data in its place. -/
theorem Run.keeps {c₀ c : ModuleCompiler} {w₀ w : ModuleWriter} (h : Run c₀ w₀ c w) :
    Keeps c₀ w₀ c w := by
  induction h with
  | refl => exact ⟨rfl, .refl _, List.prefix_rfl, rfl, rfl, List.prefix_rfl⟩
  | registerStruct name fields _ ih =>
    exact ⟨ih.options, ih.functions, ih.strings, ih.finalized, ih.baseOffset, ih.data⟩
  | internArray _ _ ih =>
    exact ⟨ih.options, ih.functions, ih.strings, ih.finalized, ih.baseOffset, ih.data⟩
  | internString _ hintern ih =>
    obtain ⟨hstrings, -, hfinalized, hbase⟩ := StringPool.intern_eq_ok hintern
    exact ⟨ih.options, ih.functions, ih.strings.trans hstrings, hfinalized.trans ih.finalized,
      hbase.trans ih.baseOffset, ih.data⟩
  | appendData bytes _ ih =>
    refine ⟨ih.options, ih.functions, ih.strings, ih.finalized, ih.baseOffset, ?_⟩
    rw [ModuleWriter.data_withData]
    exact ih.data.trans (List.prefix_append _ _)
  | @compile c w code _ ih =>
    obtain ⟨functions, hextends, hc⟩ := c.compiler_compile w code
    rw [hc]
    refine ⟨ih.options, ih.functions.trans hextends, ih.strings, ih.finalized, ih.baseOffset, ?_⟩
    rw [data_compile]
    exact ih.data

/-! ### Finishing -/

/-- The stages of finishing a module, all of them successful. -/
structure Finishing (c : ModuleCompiler) (w : ModuleWriter) where
  data : DataSection
  strings : StringPool
  functions : FunctionRegistry
  written : ModuleWriter
  finished : ModuleWriter
  finalize : c.strings.finalize w.data = (.ok data, strings)
  patchOffset : ({ c with strings } : ModuleCompiler).patchOffset = .ok functions
  writeCodeFunctions : ({ c with strings, functions } : ModuleCompiler).writeCodeFunctions
    (w.withData data) functions.codeFunctions = (.ok (), written)
  finish : written.finish functions = (.ok (), finished)

variable {c c' : ModuleCompiler} {w w' : ModuleWriter}

theorem finish_eq_ok (h : c.finish w = ⟨.ok (), c', w'⟩) :
    ∃ f : Finishing c w,
      c' = { c with strings := f.strings, functions := f.functions } ∧ w' = f.finished := by
  rcases hfinalize : c.strings.finalize w.data with ⟨table, strings⟩
  unfold ModuleCompiler.finish at h
  simp only [hfinalize] at h
  rcases table with e | data
  · cases h
  dsimp only at h
  split at h
  · cases h
  · next functions hpatch =>
    split at h
    · cases h
    · next written hwritten =>
      rcases hfinish : written.finish functions with ⟨result, finished⟩
      rw [hfinish] at h
      cases h
      exact ⟨⟨data, strings, functions, written, finished, hfinalize, hpatch, hwritten, hfinish⟩,
        rfl, rfl⟩

theorem extends_patchOffset {functions : FunctionRegistry} (h : c.patchOffset = .ok functions) :
    c.functions.Extends functions := by
  unfold ModuleCompiler.patchOffset at h
  dsimp only at h
  split_ifs at h
  · cases h
    exact .refl _
  · obtain ⟨body, -, h⟩ := bind_eq_ok.mp h
    cases h
    exact c.functions.extends_markReplacing _ _

theorem writeFunction_eq_ok {f : FunctionDraft} (h : w.writeFunction f = (.ok (), w')) :
    w'.completed = w.completed ++ [f] ∧ w'.data = w.data := by
  unfold ModuleWriter.writeFunction at h
  split at h
  · next opened hbegin =>
    obtain ⟨-, rfl⟩ := ModuleWriter.beginFunction_eq_ok.mp hbegin
    have hresult : (w.withCurrent f).endFunction.1 = .ok () := congrArg Prod.fst h
    have hwriter : w' = (w.withCurrent f).endFunction.2 := (congrArg Prod.snd h).symm
    rw [hwriter, ModuleWriter.completed_endFunction hresult, ModuleWriter.data_endFunction,
      ModuleWriter.data_withCurrent]
    exact ⟨rfl, rfl⟩
  · cases h

/-- The functions that are added when a module is finished have the code of the registry. -/
theorem writeCodeFunctions_eq_ok {functions : List (FunctionEntry × List CodeOp)}
    (h : c.writeCodeFunctions w functions = (.ok (), w')) :
    w'.data = w.data ∧ ∀ f ∈ w'.completed, f ∈ w.completed ∨
      ∃ e ops, (e, ops) ∈ functions ∧ f.id = e.id ∧ f.body = ops.map .op := by
  induction functions generalizing w with
  | nil =>
    cases h
    exact ⟨rfl, fun f hf => .inl hf⟩
  | cons head rest ih =>
    obtain ⟨e, ops⟩ := head
    unfold ModuleCompiler.writeCodeFunctions at h
    split at h
    · cases h
    · next draft hdraft =>
      split at h
      · next next hnext =>
        obtain ⟨hcompleted, hdata⟩ := writeFunction_eq_ok hnext
        obtain ⟨hdata', hrest⟩ := ih h
        refine ⟨hdata'.trans hdata, fun f hf => ?_⟩
        rcases hrest f hf with hold | ⟨e', ops', hmem, hid, hbody⟩
        · rw [hcompleted] at hold
          rcases List.mem_append.mp hold with hold | hnew
          · exact .inl hold
          · obtain rfl := List.mem_singleton.mp hnew
            exact .inr ⟨e, ops, List.mem_cons_self, (id_of_draft hdraft).1, rfl⟩
        · exact .inr ⟨e', ops', List.mem_cons_of_mem _ hmem, hid, hbody⟩
      · cases h

end ModuleCompiler

end WasmBackend
