import WasmBackend.Proofs.CallIndices
import WasmBackend.Proofs.CodeFunctions

/-! # Complete modules

A session compiles functions one after the other. If no function stays open, the functions that were
compiled are complete in the writer, in that order (`completed_run`). Finishing the module adds the
functions of the registry with a body of target code, and the finished module has exactly these
functions, each of them once and by increasing index (`finish_complete`).

One thing can prevent that. The function that gives the offset of the string table gets its body when
the module is finished, also if it was asked for before with a signature of unknown classes, and then
it cannot be written (`finish_of_unknownOffset`). -/

namespace WasmBackend

/-! ### The string table -/

namespace StringPool

/-- Number of bytes that the table of some strings takes, with their names. -/
def tableSize (strings : List String) : Nat :=
  4 * strings.length + (strings.flatMap encodeName).length

theorem exists_encodeTable {base : Nat} {strings : List String}
    (h : base + tableSize strings < 0x80000000) : ∃ bytes, encodeTable base strings = .ok bytes := by
  unfold tableSize at h
  exact ⟨_, encodeTable_of_lt (by omega)⟩

theorem exists_finalize {p : StringPool} {data : DataSection} (hopen : p.finalized = false)
    (hbase : p.baseOffset = none) (hsize : data.size + tableSize p.strings < 0x80000000) :
    ∃ data' p', p.finalize data = (.ok data', p') ∧ p'.baseOffset.getD 0 < 0x80000000 := by
  obtain ⟨bytes, hbytes⟩ := exists_encodeTable hsize
  unfold finalize
  rw [hopen, if_neg Bool.false_ne_true]
  split_ifs with hempty
  · refine ⟨data, _, rfl, ?_⟩
    rw [hbase]
    decide
  · rw [hbytes]
    refine ⟨_, _, rfl, ?_⟩
    show data.size < 0x80000000
    omega

end StringPool

/-! ### Compiled functions -/

namespace ModuleWriter

@[simp]
theorem current_withData (data : DataSection) (w : ModuleWriter) :
    (w.withData data).current = w.current := by
  cases w <;> rfl

theorem current_endFunction {w : ModuleWriter} {f : FunctionDraft}
    (h : (w.withCurrent f).endFunction.1 = .ok ()) :
    (w.withCurrent f).endFunction.2.current = none := by
  cases w with
  | text m =>
    simp only [ModuleWriter.withCurrent, ModuleWriter.endFunction, TextModule.endFunction]
    split <;> rfl
  | binary m => rfl

end ModuleWriter

namespace Session

/-- The function that a request compiles, with its number. -/
def compiledBy (s : Session) : Request → Option (FunctionName × Nat)
  | .compile code =>
    match (s.compiler.compile s.writer code).result with
    | .ok id => some (code.name, id)
    | .error _ => none
  | _ => none

/-- The functions that some requests compile, in order. -/
def compiled (s : Session) : List Request → List (FunctionName × Nat)
  | [] => []
  | q :: rest => (s.compiledBy q).toList ++ (s.serve q).compiled rest

/-- A request to compile a function succeeds, or it is rejected before the function is begun, which
leaves the writer as it is. -/
def Settles (s : Session) : Request → Prop
  | .compile code => (s.compiledBy (.compile code)).isSome = true ∨
      (s.compiler.compile s.writer code).writer = s.writer
  | _ => True

instance (s : Session) : DecidablePred s.Settles
  | .compile code => inferInstanceAs (Decidable (_ = true ∨
      (s.compiler.compile s.writer code).writer = s.writer))
  | .registerStruct _ _ | .internArray _ | .stringConstant _ _ | .appendData _ => .isTrue trivial

/-- No request leaves a function open. -/
def Clean (s : Session) : List Request → Prop
  | [] => True
  | q :: rest => s.Settles q ∧ (s.serve q).Clean rest

instance decidableClean (s : Session) : (requests : List Request) → Decidable (s.Clean requests)
  | [] => .isTrue trivial
  | q :: rest =>
    have := decidableClean (s.serve q) rest
    inferInstanceAs (Decidable (_ ∧ _))

/-- The draft is that of a function with a name and a number of the registry. -/
structure Drafted (c : ModuleCompiler) (function : FunctionName × Nat) (f : FunctionDraft) : Prop where
  lookup : c.functions.lookup function.1 = some function.2
  id : f.id = function.2
  name : f.name = function.1.fullName
  params : c.types.lowerAll function.1.params = .ok f.params
  result : c.types.lowerResult function.1.result = .ok f.result

theorem Drafted.mono {c c' : ModuleCompiler} (hfunctions : c.functions.Extends c'.functions)
    (htypes : c.types.Extends c'.types) {function : FunctionName × Nat} {f : FunctionDraft}
    (h : Drafted c function f) : Drafted c' function f := by
  refine ⟨hfunctions.lookup h.lookup, h.id, h.name, ?_, ?_⟩
  · have hparams := mapM_eq_ok.mp h.params
    exact mapM_eq_ok.mpr (hparams.imp fun _ _ hlower => htypes.lower hlower)
  · have hresult := h.result
    generalize function.1.result = result at hresult ⊢
    cases result with
    | none => exact hresult
    | some ty =>
      obtain ⟨w, hw, hsome⟩ := map_eq_ok.mp hresult
      exact map_eq_ok.mpr ⟨w, htypes.lower hw, hsome⟩

theorem drafted_of_stages {c : ModuleCompiler} {w : ModuleWriter} {code : FunctionCode}
    (stages : ModuleCompiler.Stages c w code) :
    Drafted { c with functions := stages.functions }
      (code.name, (c.functions.mark code.name false).1) (stages.draft.extend stages.emitted) := by
  have hdraft := stages.drafted
  simp only [ModuleCompiler.draft, bind_eq_ok, pure_eq_ok] at hdraft
  obtain ⟨params, hparams, result, hresult, locals, -, hdraft⟩ := hdraft
  rw [← hdraft]
  exact ⟨(extends_bodyCode stages.written).lookup (c.functions.lookup_mark code.name false), rfl, rfl,
    hparams, hresult⟩

theorem compiledBy_of_ne {s : Session} {q : Request} (h : ∀ code, q ≠ .compile code) :
    s.compiledBy q = none := by
  cases q with
  | compile code => exact absurd rfl (h code)
  | _ => rfl

/-- What a request adds to the complete functions: the function that it compiles. -/
theorem completed_serve (s : Session) (q : Request) :
    ∃ drafts, (s.serve q).writer.completed = s.writer.completed ++ drafts ∧
      List.Forall₂ (Drafted (s.serve q).compiler) (s.compiledBy q).toList drafts := by
  rcases serve_cases s.compiler q with ⟨code, rfl⟩ | ⟨bytes, rfl⟩ | ⟨c, hother, hserve⟩
  · rcases hresult : (s.compiler.compile s.writer code).result with e | id
    · have hnone : s.compiledBy (.compile code) = none := by simp only [compiledBy, hresult]
      have hkept : (s.serve (.compile code)).writer.completed = s.writer.completed :=
        ModuleCompiler.completed_of_error hresult
      rw [hkept, hnone]
      exact ⟨[], (List.append_nil _).symm, .nil⟩
    · obtain ⟨stages⟩ := ModuleCompiler.nonempty_stages hresult
      have hid : id = (s.compiler.functions.mark code.name false).1 := by
        rw [stages.result_eq] at hresult
        exact (Except.ok.inj hresult).symm
      have hsome : s.compiledBy (.compile code) = some (code.name, id) := by
        simp only [compiledBy, hresult]
      rw [serve_of_stages stages, hsome, hid]
      exact ⟨[stages.draft.extend stages.emitted], ModuleWriter.completed_endFunction stages.ended,
        .cons (drafted_of_stages stages) .nil⟩
  · refine ⟨[], ?_, .nil⟩
    rw [List.append_nil]
    exact s.writer.completed_withData _
  · rw [show s.serve q = ⟨c, s.writer⟩ from hserve s.writer, compiledBy_of_ne hother]
    exact ⟨[], (List.append_nil _).symm, .nil⟩

/-- **The complete functions of a session** are those that it compiled, in order. -/
theorem completed_run (s : Session) (requests : List Request) :
    ∃ drafts, (s.run requests).writer.completed = s.writer.completed ++ drafts ∧
      List.Forall₂ (Drafted (s.run requests).compiler) (s.compiled requests) drafts := by
  induction requests generalizing s with
  | nil => exact ⟨[], (List.append_nil _).symm, .nil⟩
  | cons q rest ih =>
    obtain ⟨first, hfirst, hdrafted⟩ := s.completed_serve q
    obtain ⟨more, hmore, hothers⟩ := ih (s.serve q)
    have hrun := (s.serve q).run_of_session rest
    refine ⟨first ++ more, ?_, ?_⟩
    · rw [← List.append_assoc, ← hfirst]
      exact hmore
    · have hkept := hdrafted.imp fun _ _ hdraft =>
        hdraft.mono hrun.keeps.functions hrun.grows.extends
      exact List.rel_append hkept hothers

theorem current_serve {s : Session} {q : Request} (hclosed : s.writer.current = none)
    (hsettles : s.Settles q) : (s.serve q).writer.current = none := by
  rcases serve_cases s.compiler q with ⟨code, rfl⟩ | ⟨bytes, rfl⟩ | ⟨c, -, hserve⟩
  · rcases hsettles with hsome | hsame
    · rcases hresult : (s.compiler.compile s.writer code).result with e | id
      · simp [compiledBy, hresult] at hsome
      · obtain ⟨stages⟩ := ModuleCompiler.nonempty_stages hresult
        rw [serve_of_stages stages]
        exact ModuleWriter.current_endFunction stages.ended
    · exact (congrArg ModuleWriter.current hsame).trans hclosed
  · exact (s.writer.current_withData _).trans hclosed
  · rw [show s.serve q = ⟨c, s.writer⟩ from hserve s.writer]
    exact hclosed

theorem current_run {s : Session} {requests : List Request} (hclosed : s.writer.current = none)
    (hclean : s.Clean requests) : (s.run requests).writer.current = none := by
  induction requests generalizing s with
  | nil => exact hclosed
  | cons q rest ih => exact ih (current_serve hclosed hclean.1) hclean.2

/-! ### Numbers of functions -/

theorem signatureName_of_id {r : FunctionRegistry} (hr : r.Sound) {e : FunctionEntry}
    (he : e ∈ r.entries) {name : FunctionName} (hname : r.lookup name = some e.id) :
    e.name.signatureName = name.signatureName := by
  obtain ⟨place, hplace⟩ := List.getElem?_of_mem he
  obtain ⟨e', he', hsame⟩ := FunctionRegistry.signatureName_of_lookup hname
  rw [hr.id_eq hplace] at he'
  cases hplace.symm.trans he'
  exact hsame

theorem map_id_of_drafted {c : ModuleCompiler} {compiled : List (FunctionName × Nat)}
    {drafts : List FunctionDraft} (h : List.Forall₂ (Drafted c) compiled drafts) :
    drafts.map FunctionDraft.id = compiled.map Prod.snd :=
  (map_eq_map_of_forall₂ h fun _ _ hdraft => hdraft.id.symm).symm

theorem nodup_of_lookup {r : FunctionRegistry} {names : List FunctionName} {ids : List Nat}
    (h : List.Forall₂ (fun name id => r.lookup name = some id) names ids)
    (hdistinct : (names.map FunctionName.signatureName).Nodup) : ids.Nodup := by
  induction h with
  | nil => exact List.nodup_nil
  | @cons name id names ids hhead hrest ih =>
    obtain ⟨hfresh, hothers⟩ := List.nodup_cons.mp hdistinct
    refine List.nodup_cons.mpr ⟨fun hmem => hfresh ?_, ih hothers⟩
    obtain ⟨name', hname', hlookup⟩ := exists_left_of_mem hrest hmem
    obtain ⟨e, he, hkey⟩ := FunctionRegistry.signatureName_of_lookup hhead
    obtain ⟨e', he', hkey'⟩ := FunctionRegistry.signatureName_of_lookup hlookup
    cases he.symm.trans he'
    exact List.mem_map.mpr ⟨name', hname', hkey'.symm.trans hkey⟩

/-- The texts by which functions are known that get a body of target code. -/
def reservedKeys (c : ModuleCompiler) : List String :=
  (StringPool.offsetFunction c.options).signatureName :: ArrayProfile.helperKeys c.options c.types

section Finished

variable {options : Options} {c : ModuleCompiler} {w₀ w : ModuleWriter} {strings : StringPool}
  {r : FunctionRegistry}

theorem key_mem_reservedKeys (hrun : ModuleCompiler.Run (.new options) w₀ c w)
    (hpatch : ({ c with strings } : ModuleCompiler).patchOffset = .ok r) {e : FunctionEntry}
    {ops : List CodeOp} (he : (e, ops) ∈ r.codeFunctions) :
    e.name.signatureName ∈ reservedKeys c := by
  have hoptions : c.options = options := hrun.keeps.options
  unfold reservedKeys
  rw [hoptions]
  rcases hrun.codeFunction_cases hpatch he with ⟨-, -, q, hq⟩ | ⟨hname, -, -⟩
  · exact List.mem_cons_of_mem _ (ArrayProfile.mem_helperKeys hq)
  · rw [hname]
    exact List.mem_cons_self

theorem nodup_ids (hrun : ModuleCompiler.Run (.new options) w₀ c w)
    (hpatch : ({ c with strings } : ModuleCompiler).patchOffset = .ok r) (hr : r.Sound)
    {names : List FunctionName} {ids : List Nat}
    (hlookup : List.Forall₂ (fun name id => c.functions.lookup name = some id) names ids)
    (hdistinct : (names.map FunctionName.signatureName).Nodup)
    (hkeys : ∀ name ∈ names, name.signatureName ∉ reservedKeys c) :
    (ids ++ r.codeFunctions.map fun f => f.1.id).Nodup := by
  refine List.nodup_append'.mpr ⟨nodup_of_lookup hlookup hdistinct, hr.nodup_codeFunctions, ?_⟩
  intro id hcompiled hcode
  obtain ⟨name, hname, hid⟩ := exists_left_of_mem hlookup hcompiled
  obtain ⟨⟨e, ops⟩, he, rfl⟩ := List.mem_map.mp hcode
  have hfound : r.lookup name = some e.id := (ModuleCompiler.extends_patchOffset hpatch).lookup hid
  have hmem := (FunctionRegistry.mem_codeFunctions.mp he).1
  have hkey := signatureName_of_id hr hmem hfound
  exact hkeys name hname (hkey ▸ key_mem_reservedKeys hrun hpatch he)

end Finished

/-! ### The finished module -/

section Complete

variable {options : Options} {requests : List Request}

theorem exists_module (hclean : (new options).Clean requests) :
    ∃ m, ((new options).run requests).writer = .binary m ∧ m.current = none ∧
      List.Forall₂ (Drafted ((new options).run requests).compiler)
        ((new options).compiled requests) m.buffered := by
  have hdrafting := (ModuleCompiler.drafting_of_run ((new options).run_of_session requests)).writer
  have hclosed := current_run (s := new options) rfl hclean
  obtain ⟨drafts, hcompleted, hdrafted⟩ := (new options).completed_run requests
  rcases hw : ((new options).run requests).writer with m | m
  · rw [hw] at hdrafting
    exact hdrafting.elim
  · rw [hw] at hclosed hcompleted
    obtain rfl : m.buffered = drafts := hcompleted
    exact ⟨m, rfl, hclosed, hdrafted⟩

/-- A session in which every function has its own name is ready to be finished. -/
theorem exists_ready (hclean : (new options).Clean requests)
    (hdistinct : (((new options).compiled requests).map fun f => f.1.signatureName).Nodup)
    (hkeys : ∀ f ∈ (new options).compiled requests,
      f.1.signatureName ∉ reservedKeys ((new options).run requests).compiler)
    (hsize : ((new options).run requests).writer.data.size +
      StringPool.tableSize ((new options).run requests).compiler.strings.strings < 0x80000000) :
    ∃ m data strings r, ((new options).run requests).writer = .binary m ∧
      ModuleCompiler.Ready ((new options).run requests).compiler m data strings r ∧
      List.Forall₂ (Drafted ((new options).run requests).compiler)
        ((new options).compiled requests) m.buffered := by
  have hrun := (new options).run_of_session requests
  obtain ⟨m, hwriter, hcurrent, hdrafted⟩ := exists_module hclean
  rw [hwriter] at hsize hrun
  obtain ⟨data, strings, hfinalize, hbase⟩ :=
    StringPool.exists_finalize hrun.keeps.finalized hrun.keeps.baseOffset hsize
  obtain ⟨r, hpatch⟩ := ModuleCompiler.exists_patchOffset
    (c := { ((new options).run requests).compiler with strings }) hbase
  have hr : r.Sound := (ModuleCompiler.advances_patchOffset hpatch).sound
    (ModuleCompiler.drafting_of_run hrun).sound
  have hlookup : List.Forall₂
      (fun name id => ((new options).run requests).compiler.functions.lookup name = some id)
      (((new options).compiled requests).map Prod.fst) (m.buffered.map FunctionDraft.id) := by
    rw [List.forall₂_map_left_iff, List.forall₂_map_right_iff]
    refine hdrafted.imp fun f draft hdraft => ?_
    rw [hdraft.id]
    exact hdraft.lookup
  refine ⟨m, data, strings, r, hwriter, hrun.ready hcurrent hfinalize hpatch ?_, hdrafted⟩
  refine nodup_ids hrun hpatch hr hlookup ?_ ?_
  · rw [List.map_map]
    exact hdistinct
  · intro name hname
    obtain ⟨f, hf, rfl⟩ := List.mem_map.mp hname
    exact hkeys f hf

/-- The finished module has the compiled functions and the code functions of a registry, each of them
once, by increasing index, and nothing else. -/
structure Complete (types : TypeRegistry) (r : FunctionRegistry)
    (compiled : List (FunctionName × Nat)) (m : BinaryModule) : Prop where
  increasing : m.functions.Pairwise fun e e' => e.index < e'.index
  index : ∀ e ∈ m.functions, r.indexOf? e.id = some e.index
  ids : (m.functions.map EncodedFunction.id).Perm
    (compiled.map Prod.snd ++ r.codeFunctions.map fun f => f.1.id)
  nodup : (m.functions.map EncodedFunction.id).Nodup
  /-- A compiled function has its name and its signature. -/
  compiled : ∀ f ∈ compiled, ∃ e ∈ m.functions, e.id = f.2 ∧ e.name = f.1.fullName ∧
    types.lowerAll f.1.params = .ok e.params ∧ types.lowerResult f.1.result = .ok e.result
  /-- The body of a code function is the code in the registry, and decodes to it. -/
  code : ∀ f ∈ r.codeFunctions, ∃ e ∈ m.functions, e.id = f.1.id ∧ e.name = f.1.name.fullName ∧
    types.lowerAll f.1.name.params = .ok e.params ∧
    types.lowerResult f.1.name.result = .ok e.result ∧
    ∃ instrs : List TargetOp, f.2 = instrs.map .target ∧ e.bytes = functionBytes [] instrs ∧
      (types.nextTypeIndex ≤ 0x100000000 →
        decodeFunction e.bytes = some { locals := [], code := instrs })

/-- Encoded drafts make a complete module. -/
theorem complete_of_encodes {c : ModuleCompiler} {w₀ w : ModuleWriter}
    (hrun : ModuleCompiler.Run (.new options) w₀ c w) {m : BinaryModule} {data : DataSection}
    {strings : StringPool} {r : FunctionRegistry}
    (hready : ModuleCompiler.Ready c m data strings r) {compiled : List (FunctionName × Nat)}
    (hdrafted : List.Forall₂ (Drafted c) compiled m.buffered) {drafts : List FunctionDraft}
    (hdrafts : List.Forall₂ (fun f d => c.codeDraft f = .ok d) r.codeFunctions drafts)
    {encoded : List EncodedFunction}
    (hencoded : BinaryModule.Encodes (.ofRegistry r) (m.buffered ++ drafts) encoded)
    {m' : BinaryModule} (hm' : m'.functions = BinaryModule.inOrder encoded) :
    Complete c.types r compiled m' := by
  have hids : encoded.map EncodedFunction.id =
      compiled.map Prod.snd ++ r.codeFunctions.map fun f => f.1.id := by
    rw [map_id_of_encodes hencoded, List.map_append, map_id_of_drafted hdrafted,
      ModuleCompiler.map_id_of_codeDrafts hdrafts]
  have hnodup : (encoded.map EncodedFunction.id).Nodup := by
    rw [hids, ← map_id_of_drafted hdrafted]
    exact hready.ids
  have hindices := indexOf?_of_encodes hencoded
  have hperm : m'.functions.Perm encoded := by
    rw [hm']
    exact List.mergeSort_perm encoded _
  refine ⟨?_, ?_, ?_, ?_, ?_, ?_⟩
  · rw [hm']
    exact BinaryModule.pairwise_inOrder (BinaryModule.nodup_index hindices hnodup)
  · exact fun e he => hindices e (hperm.mem_iff.mp he)
  · rw [← hids]
    exact hperm.map _
  · exact (hperm.map _).nodup_iff.mpr hnodup
  · intro f hf
    obtain ⟨draft, hdraft, hof⟩ := exists_right_of_mem hdrafted hf
    obtain ⟨e, he, hencode⟩ := hencoded.exists_encoded (List.mem_append_left _ hdraft)
    obtain ⟨ops, hfinishes⟩ := FunctionDraft.encode_eq_ok hencode
    refine ⟨e, hperm.mem_iff.mpr he, hfinishes.id.trans hof.id, hfinishes.name.trans hof.name, ?_, ?_⟩
    · rw [hfinishes.params]
      exact hof.params
    · rw [hfinishes.result]
      exact hof.result
  · intro f hf
    obtain ⟨draft, hdraft, hof⟩ := exists_right_of_mem hdrafts hf
    obtain ⟨e, he, hencode⟩ := hencoded.exists_encoded (List.mem_append_right _ hdraft)
    obtain ⟨instrs, hplain⟩ := hrun.plainCode hready.patchOffset hf
    obtain ⟨hid, hname, hparams, hresult, hbytes⟩ :=
      ModuleCompiler.encode_codeDraft hplain.code hof hencode
    refine ⟨e, hperm.mem_iff.mpr he, hid, hname, hparams, hresult, instrs, hplain.code, hbytes, ?_⟩
    intro htypes
    rw [hbytes]
    exact hplain.decodeFunction htypes

/-- **Finishing a module loses and duplicates nothing.** If no request leaves a function open, every
compiled function has its own name, and none has the name of a code function, then the module can be
finished exactly if the function that gives the offset of the string table was not asked for with
unknown classes; and then it has all functions, once. -/
theorem finish_complete (hclean : (new options).Clean requests)
    (hdistinct : (((new options).compiled requests).map fun f => f.1.signatureName).Nodup)
    (hkeys : ∀ f ∈ (new options).compiled requests,
      f.1.signatureName ∉ reservedKeys ((new options).run requests).compiler)
    (hsize : ((new options).run requests).writer.data.size +
      StringPool.tableSize ((new options).run requests).compiler.strings.strings < 0x80000000) :
    let s := (new options).run requests
    (s.finish.result = .ok () ↔ ∀ e ∈ s.compiler.functions.entries,
        e.name.signatureName = (StringPool.offsetFunction options).signatureName →
        e.name.HasKnownTypes s.compiler.types) ∧
      (s.finish.result = .ok () → ∃ m, s.finish.writer = .binary m ∧
        Complete s.compiler.types s.finish.compiler.functions ((new options).compiled requests) m) := by
  intro s
  have hrun := (new options).run_of_session requests
  obtain ⟨m, data, strings, r, hwriter, hready, hdrafted⟩ :=
    exists_ready hclean hdistinct hkeys hsize
  have hfinish : s.finish = s.compiler.finish (.binary m) := by
    rw [← hwriter]
    rfl
  rw [hfinish, hready.finish_ok_iff]
  refine ⟨hrun.hasKnownTypes_iff hready.patchOffset, fun hknown => ?_⟩
  obtain ⟨drafts, hdrafts⟩ := ModuleCompiler.exists_codeDrafts hknown
  obtain ⟨encoded, hencoded, hfinished⟩ := hready.exists_encoded hdrafts
  rw [hfinished]
  exact ⟨_, rfl, complete_of_encodes hrun hready hdrafted hdrafts hencoded rfl⟩

end Complete

/-- A procedure of the main class. -/
def mainProcedure (methodName : String) (params : List OperandType)
    (instructions : List Instruction) : Request :=
  .compile
    { name := { className := "Main", methodName, signature := "()V", params, result := none }
      instructions }

/-- A session that compiles two procedures, one with an array and a string, and rejects a third one
because of its unknown class. -/
def withRejected : List Request :=
  [.internArray (.value .i32), .stringConstant "on" .unknown,
    mainProcedure "run" []
      [⟨.unknown, .const (.i32 3)⟩, ⟨.unknown, .array .new (.value .i32) 0⟩,
        ⟨.unknown, .control .drop (some (.array 0)) 0⟩,
        ⟨.unknown, .stringConst 0 TypeRegistry.stringType⟩,
        ⟨.unknown, .control .drop (some TypeRegistry.stringType) 0⟩],
    mainProcedure "show" [.struct 7] [], mainProcedure "stop" [] []]

/-- The module of that session has both procedures, the allocation of arrays and the offset of the
string table. -/
theorem finish_complete_withRejected :
    let s := (new { useGc := true }).run withRejected
    ((new { useGc := true }).compiled withRejected).map Prod.snd = [0, 5] ∧
      s.finish.result = .ok () ∧
      ∃ m, s.finish.writer = .binary m ∧
        (m.functions.map EncodedFunction.id).Perm [0, 5, 1, 3] ∧
        m.functions.Pairwise fun e e' => e.index < e'.index := by
  intro s
  have hclean : (new { useGc := true }).Clean withRejected := by decide +kernel
  have hcompiled : ((new { useGc := true }).compiled withRejected).map Prod.snd = [0, 5] := by
    decide +kernel
  obtain ⟨hiff, hcomplete⟩ := finish_complete hclean (by decide +kernel) (by decide +kernel)
    (by decide +kernel)
  have hresult : s.finish.result = .ok () := hiff.mpr (by decide +kernel)
  obtain ⟨m, hwriter, hall⟩ := hcomplete hresult
  -- the registry that is left
  have htable : (s.compiler.strings.finalize s.writer.data).1.map (fun _ => ()) = .ok () := by
    decide +kernel
  have hpatch : (({ s.compiler with
        strings := (s.compiler.strings.finalize s.writer.data).2 } : ModuleCompiler).patchOffset.map
      fun r => r.codeFunctions.map fun f => f.1.id) = .ok [1, 3] := by decide +kernel
  obtain ⟨data, hdata, -⟩ := map_eq_ok.mp htable
  obtain ⟨r, hr, hcode⟩ := map_eq_ok.mp hpatch
  have hfunctions : s.finish.compiler.functions = r := ModuleCompiler.functions_finish hdata hr
  have hids := hall.ids
  rw [hfunctions, hcompiled, hcode] at hids
  exact ⟨hcompiled, hresult, m, hwriter, hids, hall.increasing⟩

/-- A session that asks for the function that gives the offset of the string table, with a parameter
of an unknown class. The request is rejected. -/
def unknownOffset : List Request :=
  [.compile
    { name := { StringPool.offsetFunction {} with params := [.struct 5] }
      instructions := [⟨.unknown, .const (.i32 0)⟩] }]

/-- **A rejected function can prevent a module from being finished.** Nothing is compiled and no function
stays open, but the function that gives the offset is there and cannot be written. -/
theorem finish_of_unknownOffset :
    (new {}).Clean unknownOffset ∧ (new {}).compiled unknownOffset = [] ∧
      ((new {}).run unknownOffset).writer = .newBinary ∧
      ((new {}).run unknownOffset).compiler.strings.strings = [] ∧
      ((new {}).run unknownOffset).finish.result ≠ .ok () ∧
      ((new {}).run unknownOffset).finish.compiler.functions.codeFunctions.length = 1 := by
  decide +kernel

end Session

end WasmBackend
