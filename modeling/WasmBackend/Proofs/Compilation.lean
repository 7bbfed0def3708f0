import WasmBackend.ModuleCompiler
import WasmBackend.Proofs.BinaryModule
import WasmBackend.Proofs.EmissionCalls

/-! # Runs of the compiler

A run compiles functions one after the other, whether or not they succeed, while classes, string
literals and data are added (`Run`). In a binary module that is not finished, every function that is
written or complete has a number of the registry and calls only functions of the registry
(`Drafting`), which every step of a run preserves (`drafting_of_run`) and which holds of what is
resolved when the module is finished (`Drafting.finish`). -/

namespace WasmBackend

/-- The draft and the functions it calls are among the first `n` functions. -/
def FunctionDraft.CallsBelow (n : Nat) (f : FunctionDraft) : Prop :=
  f.id < n ∧ ∀ e ∈ f.body, e.CallsBelow n

theorem FunctionDraft.CallsBelow.mono {n n' : Nat} (h : n ≤ n') {f : FunctionDraft}
    (hf : f.CallsBelow n) : f.CallsBelow n' :=
  ⟨Nat.lt_of_lt_of_le hf.1 h, fun e he => (hf.2 e he).mono h⟩

namespace BinaryModule

/-- The module is not finished, and its drafts know only the first `n` functions. -/
structure Drafting (n : Nat) (m : BinaryModule) : Prop where
  functions : m.functions = []
  buffered : ∀ f ∈ m.buffered, f.CallsBelow n
  current : ∀ f, m.current = some f → f.CallsBelow n

theorem drafting_empty : Drafting 0 {} := ⟨rfl, by simp, by simp⟩

theorem Drafting.mono {n n' : Nat} (h : n ≤ n') {m : BinaryModule} (hm : Drafting n m) :
    Drafting n' m :=
  ⟨hm.functions, fun f hf => (hm.buffered f hf).mono h, fun f hf => (hm.current f hf).mono h⟩

theorem Drafting.beginFunction {n : Nat} {m m' : BinaryModule} {f : FunctionDraft}
    (hm : Drafting n m) (hf : f.CallsBelow n) (h : m.beginFunction f = .ok m') :
    Drafting n m' := by
  obtain ⟨-, rfl⟩ := beginFunction_eq_ok h
  refine ⟨hm.functions, hm.buffered, fun f' hf' => ?_⟩
  cases hf'
  exact hf

theorem Drafting.emit {n : Nat} {m m' : BinaryModule} {code : List Emission} (hm : Drafting n m)
    (hcode : ∀ e ∈ code, e.CallsBelow n) (h : m.emit code = .ok m') : Drafting n m' := by
  obtain rfl := emit_eq_ok h
  refine ⟨hm.functions, hm.buffered, fun f' hf' => ?_⟩
  obtain ⟨f, hf, rfl⟩ := Option.map_eq_some_iff.mp hf'
  obtain ⟨hid, hbody⟩ := hm.current f hf
  refine ⟨hid, fun e he => ?_⟩
  rcases List.mem_append.mp he with hold | hnew
  · exact hbody e hold
  · exact hcode e hnew

theorem Drafting.endFunction {n : Nat} {m m' : BinaryModule} (hm : Drafting n m)
    (h : m.endFunction = .ok m') : Drafting n m' := by
  obtain ⟨f, hf, rfl⟩ := endFunction_eq_ok h
  refine ⟨hm.functions, fun f' hf' => ?_, by simp⟩
  rcases List.mem_append.mp hf' with hold | hnew
  · exact hm.buffered f' hold
  · obtain rfl := List.mem_singleton.mp hnew
    exact hm.current f' hf

end BinaryModule

/-! ### Writing instructions -/

namespace ModuleWriter

/-- The writer writes a binary module that is not finished and knows the first `n` functions. -/
def Drafting (n : Nat) : ModuleWriter → Prop
  | .binary m => m.Drafting n
  | .text _ => False

theorem Drafting.mono {n n' : Nat} (h : n ≤ n') {w : ModuleWriter} (hw : w.Drafting n) :
    w.Drafting n' := by
  cases w with
  | text m => exact hw
  | binary m => exact BinaryModule.Drafting.mono h hw

theorem Drafting.beginFunction {n : Nat} {w w' : ModuleWriter} {f : FunctionDraft}
    (hw : w.Drafting n) (hf : f.CallsBelow n) (h : w.beginFunction f = .ok w') :
    w'.Drafting n := by
  cases w with
  | text m => exact hw.elim
  | binary m =>
    obtain ⟨m', hm', rfl⟩ := map_eq_ok.mp h
    exact BinaryModule.Drafting.beginFunction hw hf hm'

theorem Drafting.emit {n : Nat} {w w' : ModuleWriter} {code : List Emission} (hw : w.Drafting n)
    (hcode : ∀ e ∈ code, e.CallsBelow n) (h : w.emit code = .ok w') : w'.Drafting n := by
  cases w with
  | text m => exact hw.elim
  | binary m =>
    obtain ⟨m', hm', rfl⟩ := map_eq_ok.mp h
    exact BinaryModule.Drafting.emit hw hcode hm'

theorem Drafting.endFunction {n : Nat} {w : ModuleWriter} (hw : w.Drafting n) :
    w.endFunction.2.Drafting n := by
  cases w with
  | text m => exact hw.elim
  | binary m =>
    simp only [ModuleWriter.endFunction]
    split
    · next m' h => exact BinaryModule.Drafting.endFunction hw h
    · exact hw

theorem Drafting.withData {n : Nat} {w : ModuleWriter} (hw : w.Drafting n) (data : DataSection) :
    (w.withData data).Drafting n := by
  cases w with
  | text m => exact hw.elim
  | binary m => exact ⟨hw.functions, hw.buffered, hw.current⟩

theorem Drafting.writeFunction {n : Nat} {w : ModuleWriter} {f : FunctionDraft}
    (hw : w.Drafting n) (hf : f.CallsBelow n) : (w.writeFunction f).2.Drafting n := by
  unfold ModuleWriter.writeFunction
  split
  · next w' hbegin => exact (hw.beginFunction hf hbegin).endFunction
  · exact hw

theorem Drafting.write {functions : FunctionRegistry} {w : ModuleWriter}
    (hw : w.Drafting functions.count) (i : Instruction) (options : Options)
    (types : TypeRegistry) :
    functions.Advances (w.write i options types functions).functions ∧
      (w.write i options types functions).writer.Drafting
        (w.write i options types functions).functions.count := by
  have hcalls := callsKnown_emissions i options types functions
  unfold ModuleWriter.write
  split
  · next e functions' he =>
    rw [he] at hcalls
    exact ⟨hcalls.advances, hw.mono hcalls.advances.count_le⟩
  · next code functions' hcode =>
    rw [hcode] at hcalls
    have hw' := hw.mono hcalls.advances.count_le
    split
    · next w' hemit => exact ⟨hcalls.advances, hw'.emit (hcalls.calls code rfl) hemit⟩
    · exact ⟨hcalls.advances, hw'⟩

theorem Drafting.writeAll {functions : FunctionRegistry} {w : ModuleWriter}
    (hw : w.Drafting functions.count) (body : List Instruction) (options : Options)
    (types : TypeRegistry) :
    functions.Advances (w.writeAll options types functions body).functions ∧
      (w.writeAll options types functions body).writer.Drafting
        (w.writeAll options types functions body).functions.count := by
  induction body generalizing functions w with
  | nil => exact ⟨.refl _, hw⟩
  | cons i rest ih =>
    obtain ⟨hadvances, hw'⟩ := hw.write i options types
    simp only [ModuleWriter.writeAll]
    split
    · obtain ⟨hrest, hw''⟩ := ih hw'
      exact ⟨hadvances.trans hrest, hw''⟩
    · exact ⟨hadvances, hw'⟩

end ModuleWriter

/-! ### Runs -/

namespace ModuleCompiler

/-- What has been compiled into a writer, with everything that was registered meanwhile. -/
inductive Run (c₀ : ModuleCompiler) (w₀ : ModuleWriter) : ModuleCompiler → ModuleWriter → Prop
  | refl : Run c₀ w₀ c₀ w₀
  | registerStruct {c : ModuleCompiler} {w : ModuleWriter} (name : String)
      (fields : List OperandType) : Run c₀ w₀ c w →
      Run c₀ w₀ { c with types := (c.types.registerStruct name fields).2 } w
  | internArray {c : ModuleCompiler} {w : ModuleWriter} {element : OperandType} {id : Nat}
      {types : TypeRegistry} : Run c₀ w₀ c w → c.types.internArray element = (.ok id, types) →
      Run c₀ w₀ { c with types } w
  | internString {c : ModuleCompiler} {w : ModuleWriter} {value : String} {id : Nat}
      {strings : StringPool} : Run c₀ w₀ c w → c.strings.intern value = (.ok id, strings) →
      Run c₀ w₀ { c with strings } w
  | appendData {c : ModuleCompiler} {w : ModuleWriter} (bytes : List UInt8) : Run c₀ w₀ c w →
      Run c₀ w₀ c (w.withData (w.data.append bytes))
  | compile {c : ModuleCompiler} {w : ModuleWriter} (code : FunctionCode) : Run c₀ w₀ c w →
      Run c₀ w₀ (c.compile w code).compiler (c.compile w code).writer

/-- The registry is sound, and the writer knows only functions of it. -/
structure Drafting (c : ModuleCompiler) (w : ModuleWriter) : Prop where
  sound : c.functions.Sound
  writer : w.Drafting c.functions.count

theorem id_of_draft {c : ModuleCompiler} {id : Nat} {name : FunctionName}
    {locals : List OperandType} {f : FunctionDraft} (h : c.draft id name locals = .ok f) :
    f.id = id ∧ f.body = [] := by
  simp only [draft, bind_eq_ok, pure_eq_ok] at h
  obtain ⟨params, -, result, -, locals, -, rfl⟩ := h
  exact ⟨rfl, rfl⟩

/-- The compiler once a function has been asked for. -/
def marked (c : ModuleCompiler) (name : FunctionName) : ModuleCompiler :=
  { c with functions := (c.functions.mark name false).2 }

/-- What is left after a function has been begun: its code is written, and it is completed if that
succeeds. -/
structure Begun (c : ModuleCompiler) (w : ModuleWriter) (code : FunctionCode) (f : FunctionDraft)
    (body : List Instruction) (written : ModuleWriter.Written) : Prop where
  draft : ∃ locals, (c.marked code.name).draft (c.functions.mark code.name false).1 code.name
    locals = .ok f
  writes : ∃ w', w.beginFunction f = .ok w' ∧
    written = w'.writeAll c.options c.types (c.marked code.name).functions body
  compiler : (c.compile w code).compiler = { c with functions := written.functions }
  writer : (c.compile w code).writer =
    match written.result with
    | .ok () => written.writer.endFunction.2
    | .error _ => written.writer
  result : (c.compile w code).result =
    match written.result with
    | .ok () => written.writer.endFunction.1.map fun _ => (c.functions.mark code.name false).1
    | .error e => .error e

/-- What compiling a function can do: it is rejected once it has been asked for, or it is begun. -/
theorem compile_cases (c : ModuleCompiler) (w : ModuleWriter) (code : FunctionCode) :
    ((c.compile w code).compiler = c.marked code.name ∧ (c.compile w code).writer = w ∧
        ∃ e, (c.compile w code).result = .error e) ∨
      ∃ f body written, Begun c w code f body written := by
  cases hslots : SlotTable.ofParams code.name.params with
  | error e => exact .inl (by simp [ModuleCompiler.compile, hslots, marked])
  | ok slots =>
    rcases hresolve : Instruction.resolveAll code.instructions slots with ⟨body, slots'⟩
    let ctx : Verifier.Context :=
      { function := code.name.fullName, result := code.name.result, slots := slots' }
    let opened := do
      Verifier.verify ctx body
      let f ← (c.marked code.name).draft (c.functions.mark code.name false).1 code.name
        slots'.localTypes
      w.beginFunction f
    cases hopened : opened with
    | error e =>
      left
      simp only [opened, ctx, marked] at hopened
      simp only [ModuleCompiler.compile, hslots, hresolve, hopened, marked, true_and]
      exact ⟨e, rfl⟩
    | ok w' =>
      right
      have hsteps := hopened
      simp only [opened, bind_eq_ok] at hsteps
      obtain ⟨-, -, f, hf, hbegin⟩ := hsteps
      simp only [opened, ctx, marked] at hopened
      refine ⟨f, body, _, ⟨_, hf⟩, ⟨w', hbegin, rfl⟩, ?_, ?_, ?_⟩
      · simp only [ModuleCompiler.compile, hslots, hresolve, hopened, marked]
        split <;> rfl
      · simp only [ModuleCompiler.compile, hslots, hresolve, hopened, marked]
        split <;> simp_all
      · simp only [ModuleCompiler.compile, hslots, hresolve, hopened, marked]
        split <;> simp_all

theorem Drafting.compile {c : ModuleCompiler} {w : ModuleWriter} (h : Drafting c w)
    (code : FunctionCode) :
    Drafting (c.compile w code).compiler (c.compile w code).writer := by
  have hmark := c.functions.advances_mark code.name false
  have hid := c.functions.insert_lt code.name false none
  rcases c.compile_cases w code with ⟨hc, hw, -⟩ | ⟨f, body, written, hbegun⟩
  · rw [hc, hw]
    exact ⟨hmark.sound h.sound, h.writer.mono hmark.count_le⟩
  · obtain ⟨locals, hdraft⟩ := hbegun.draft
    obtain ⟨w', hbegin, rfl⟩ := hbegun.writes
    obtain ⟨hfid, hfbody⟩ := id_of_draft hdraft
    have hf : f.CallsBelow (c.marked code.name).functions.count :=
      ⟨hfid ▸ hid, by simp [hfbody]⟩
    have hw' := (h.writer.mono hmark.count_le).beginFunction hf hbegin
    obtain ⟨hadvances, hwritten⟩ := hw'.writeAll body c.options c.types
    rw [hbegun.compiler, hbegun.writer]
    refine ⟨hadvances.sound (hmark.sound h.sound), ?_⟩
    split
    · exact hwritten.endFunction
    · exact hwritten

theorem Drafting.run {c₀ c : ModuleCompiler} {w₀ w : ModuleWriter} (h₀ : Drafting c₀ w₀)
    (h : Run c₀ w₀ c w) : Drafting c w := by
  induction h with
  | refl => exact h₀
  | registerStruct name fields _ ih => exact ⟨ih.sound, ih.writer⟩
  | internArray _ hintern ih => exact ⟨ih.sound, ih.writer⟩
  | internString _ hintern ih => exact ⟨ih.sound, ih.writer⟩
  | appendData bytes _ ih => exact ⟨ih.sound, ih.writer.withData _⟩
  | compile code _ ih => exact ih.compile code

/-- **Every run of the compiler drafts the functions of its registry.** -/
theorem drafting_of_run {options : Options} {c : ModuleCompiler} {w : ModuleWriter}
    (h : Run (.new options) .newBinary c w) : Drafting c w := by
  have hnew : Drafting (.new options) .newBinary :=
    ⟨FunctionRegistry.sound_empty, BinaryModule.drafting_empty⟩
  exact hnew.run h

/-! ### Finishing -/

theorem advances_patchOffset {c : ModuleCompiler} {functions : FunctionRegistry}
    (h : c.patchOffset = .ok functions) : c.functions.Advances functions := by
  unfold patchOffset at h
  dsimp only at h
  split_ifs at h
  · cases h
    exact .refl _
  · obtain ⟨body, hbody, h⟩ := bind_eq_ok.mp h
    cases h
    unfold StringPool.offsetBody at hbody
    split_ifs at hbody
    cases hbody
    exact ⟨c.functions.count_le_markReplacing _ _,
      fun hsound => hsound.markReplacing _ (callFree_constantBody _)⟩

theorem Drafting.writeCodeFunctions {c : ModuleCompiler} {n : Nat} {w : ModuleWriter}
    (hw : w.Drafting n) {functions : List (FunctionEntry × List CodeOp)}
    (h : ∀ e ops, (e, ops) ∈ functions → e.id < n ∧ ∀ op ∈ ops, op.isCallFree = true) :
    (c.writeCodeFunctions w functions).2.Drafting n := by
  induction functions generalizing w with
  | nil => exact hw
  | cons head rest ih =>
    obtain ⟨e, ops⟩ := head
    obtain ⟨hid, hops⟩ := h e ops List.mem_cons_self
    have hrest := fun e' ops' he' => h e' ops' (List.mem_cons_of_mem _ he')
    unfold ModuleCompiler.writeCodeFunctions
    split
    · exact hw
    · next f hf =>
      have hfcalls : ({ f with body := ops.map .op } : FunctionDraft).CallsBelow n := by
        refine ⟨(id_of_draft hf).1 ▸ hid, fun e' he' => ?_⟩
        obtain ⟨op, hop, rfl⟩ := List.mem_map.mp he'
        exact hops op hop
      have hwritten := hw.writeFunction hfcalls
      split
      · next w' hw' =>
        rw [hw'] at hwritten
        exact ih hwritten hrest
      · next e' w' hw' =>
        rw [hw'] at hwritten
        exact hwritten

/-- What finishing a run leaves: a module that is still not finished, or the drafts of one resolved
in the registry that is left. -/
theorem Drafting.finish {c : ModuleCompiler} {w : ModuleWriter} (h : Drafting c w) :
    Drafting (c.finish w).compiler (c.finish w).writer ∨
      ∃ w', Drafting (c.finish w).compiler w' ∧
        w'.finish (c.finish w).compiler.functions = ((c.finish w).result, (c.finish w).writer) := by
  unfold ModuleCompiler.finish
  dsimp only
  split
  · exact .inl ⟨h.sound, h.writer⟩
  · next data hdata =>
    have hw := h.writer.withData data
    split
    · exact .inl ⟨h.sound, hw⟩
    · next functions hpatch =>
      have hadvances := advances_patchOffset hpatch
      have hsound := hadvances.sound h.sound
      have hwritten := Drafting.writeCodeFunctions
        (c := { c with strings := (c.strings.finalize w.data).2, functions })
        (hw.mono hadvances.count_le) fun e ops he => hsound.codeFunctions he
      split
      · next e w' hw' =>
        rw [hw'] at hwritten
        exact .inl ⟨hsound, hwritten⟩
      · next w' hw' =>
        rw [hw'] at hwritten
        exact .inr ⟨w', ⟨hsound, hwritten⟩, rfl⟩

end ModuleCompiler

end WasmBackend
