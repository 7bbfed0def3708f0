import WasmBackend.Proofs.CompleteModule
import WasmBackend.Proofs.FunctionViews
import WasmBackend.Proofs.SharedNeeds

/-! # Order of compilation

Functions can be compiled in any order. The order determines the numbers of functions, and with them
the indices in the finished module, but not the functions: two orders in which all functions compile
give modules with the same functions, up to the indices of callees, and the same data
(`finish_order`).

That holds if calls do not interfere with the functions that the compiler provides: the registry keeps
the first of two functions with the same text, so a call of an allocation helper by its name can
prevent the helper from getting its body, but only if it is compiled first
(`functions_of_interfering`). -/

namespace WasmBackend

/-! ### What a function needs -/

namespace Instruction

variable {options : Options} {types : TypeRegistry}

theorem needs_resolve (i : Instruction) (t : SlotTable) :
    (i.resolve t).1.needs options types = i.needs options types := by
  unfold resolve
  split
  · next op slot ty hkind => simp only [needs, hkind]
  · rfl

theorem flatMap_needs_resolveAll (body : List Instruction) (t : SlotTable) :
    (resolveAll body t).1.flatMap (needs options types) = body.flatMap (needs options types) := by
  induction body generalizing t with
  | nil => rfl
  | cons i rest ih =>
    simp only [resolveAll, List.flatMap_cons]
    rw [needs_resolve, ih]

/-- The function that an instruction calls by its name. -/
def called? (options : Options) (i : Instruction) : Option FunctionName :=
  match i.kind with
  | .call name _ => some name
  | .stringConst _ _ => some (StringPool.accessor options)
  | _ => none

end Instruction

namespace FunctionCode

/-- What is needed to compile a function: the function itself, and what its instructions need. -/
def needs (options : Options) (types : TypeRegistry) (code : FunctionCode) : List Need :=
  ⟨code.name, none⟩ :: code.instructions.flatMap (Instruction.needs options types)

/-- The functions that a function calls by their names. -/
def called (options : Options) (code : FunctionCode) : List FunctionName :=
  code.instructions.filterMap (Instruction.called? options)

/-- A need is that of a function by its name, of the offset of the string table, or of a helper. -/
theorem mem_needs {options : Options} {types : TypeRegistry} {code : FunctionCode} {n : Need}
    (h : n ∈ code.needs options types) :
    (n.body = none ∧ (n.name = code.name ∨ n.name ∈ code.called options)) ∨
      n = ⟨StringPool.offsetFunction options, some (StringPool.constantBody 0)⟩ ∨
      ∃ q body, ArrayProfile.helperOf options types q = some (n.name, body) ∧
        n.body = some body := by
  rcases List.mem_cons.mp h with rfl | hbody
  · exact .inl ⟨rfl, .inl rfl⟩
  · obtain ⟨i, hi, hneed⟩ := List.mem_flatMap.mp hbody
    unfold Instruction.needs at hneed
    split at hneed
    · next op element array hkind =>
      obtain ⟨⟨name, body⟩, hhelper, rfl⟩ := List.mem_map.mp hneed
      exact .inr (.inr ⟨(op, array), body, Option.mem_toList.mp hhelper, rfl⟩)
    · next name viewedAs hkind =>
      obtain rfl := List.mem_singleton.mp hneed
      refine .inl ⟨rfl, .inr (List.mem_filterMap.mpr ⟨i, hi, ?_⟩)⟩
      simp only [Instruction.called?, hkind]
    · next id ty hkind =>
      rcases List.mem_cons.mp hneed with rfl | hoffset
      · refine .inl ⟨rfl, .inr (List.mem_filterMap.mpr ⟨i, hi, ?_⟩)⟩
        simp only [Instruction.called?, hkind]
      · exact .inr (.inl (List.mem_singleton.mp hoffset))
    · cases hneed

end FunctionCode

/-- A call by a name does not interfere with the functions that the compiler provides: it is not that
of an allocation helper with a body, and it is not that of the function that gives the offset of the
string table under another declaration. -/
structure FunctionName.Harmless (options : Options) (types : TypeRegistry) (name : FunctionName) :
    Prop where
  helper : options.useGc = true → name.signatureName ∉ ArrayProfile.helperKeys options types
  offset : name.signatureName = (StringPool.offsetFunction options).signatureName →
    name.declaration = (StringPool.offsetFunction options).declaration

instance (options : Options) (types : TypeRegistry) (name : FunctionName) :
    Decidable (name.Harmless options types) :=
  decidable_of_iff ((options.useGc = true →
      name.signatureName ∉ ArrayProfile.helperKeys options types) ∧
    (name.signatureName = (StringPool.offsetFunction options).signatureName →
      name.declaration = (StringPool.offsetFunction options).declaration))
    ⟨fun h => ⟨h.1, h.2⟩, fun h => ⟨h.helper, h.offset⟩⟩

/-- **What functions need agrees**, if their names are not those of provided functions and their calls
are harmless. -/
theorem agree_needs {options : Options} {types : TypeRegistry} (hwf : types.WellFormed)
    (hnamed : types.Named) (hnames : (types.arrays.map ArrayClass.name).Nodup)
    {codes : List FunctionCode}
    (hhelper : ∀ code ∈ codes, code.name.signatureName ∉ ArrayProfile.helperKeys options types)
    (hoffset : ∀ code ∈ codes,
      code.name.signatureName ≠ (StringPool.offsetFunction options).signatureName)
    (hcalled : ∀ code ∈ codes, ∀ name ∈ code.called options, name.Harmless options types) :
    Agree options (codes.flatMap (FunctionCode.needs options types)) := by
  refine ⟨fun n hn n' hn' hkey hother ops hbody => ?_, fun n hn hkey => ?_⟩
  · obtain ⟨code, -, hneed⟩ := List.mem_flatMap.mp hn
    obtain ⟨code', hcode', hneed'⟩ := List.mem_flatMap.mp hn'
    rcases FunctionCode.mem_needs hneed with ⟨hnone, -⟩ | rfl | ⟨q, body, hq, hsome⟩
    · cases hnone.symm.trans hbody
    · exact absurd rfl hother
    · -- a body of target code is that of a helper, so every need under its text is one of the helper
      obtain rfl : body = .code ops := Option.some.inj (hsome.symm.trans hbody)
      have hgc := ArrayProfile.useGc_of_helperOf_code hq
      have hmem := ArrayProfile.mem_helperKeys hq
      rw [← hkey] at hmem
      rcases FunctionCode.mem_needs hneed' with ⟨-, hown | hcall⟩ | rfl | ⟨q', body', hq', hsome'⟩
      · exact absurd (hown ▸ hmem) (hhelper code' hcode')
      · exact absurd hmem ((hcalled code' hcode' _ hcall).helper hgc)
      · exact absurd hkey.symm hother
      · obtain ⟨hname, rfl⟩ :=
          ArrayProfile.helper_eq_of_signatureName hwf hnamed hnames hq hq' hkey
        exact ⟨hsome', congrArg FunctionName.declaration hname⟩
  · obtain ⟨code, hcode, hneed⟩ := List.mem_flatMap.mp hn
    rcases FunctionCode.mem_needs hneed with ⟨-, hown | hcall⟩ | rfl | ⟨q, body, hq, -⟩
    · exact absurd (hown ▸ hkey) (hoffset code hcode)
    · exact (hcalled code hcode _ hcall).offset hkey
    · rfl
    · exact absurd hkey (ArrayProfile.signatureName_ne_offset hwf hnamed hq)

/-! ### Drafts of functions -/

/-- The draft is what is left of a function in the writer: it has the declaration of the function,
its locals, and its code in the registry of the compiler. -/
structure DraftOf (c : ModuleCompiler) (code : FunctionCode) (f : FunctionDraft) : Prop where
  drafted : Session.Drafted c (code.name, f.id) f
  body : ∃ params slots body, SlotTable.ofParams code.name.params = .ok params ∧
    Instruction.resolveAll code.instructions params = (body, slots) ∧
    c.types.lowerAll slots.localTypes = .ok f.locals ∧
    bodyCode c.options c.types c.functions body = some (f.body, c.functions)

theorem DraftOf.later {c : ModuleCompiler} {code : FunctionCode} {f : FunctionDraft}
    (h : DraftOf c code f) {functions : FunctionRegistry} (hlater : c.functions.Extends functions) :
    DraftOf { c with functions } code f := by
  obtain ⟨params, slots, body, hparams, hbody, hlocals, hcode⟩ := h.body
  have hdrafted : Session.Drafted { c with functions } (code.name, f.id) f := by
    refine h.drafted.mono hlater ?_
    exact .refl _
  exact ⟨hdrafted, params, slots, body, hparams, hbody, hlocals, bodyCode_again hcode hlater⟩

theorem draftOf_of_stages {c : ModuleCompiler} {w : ModuleWriter} {code : FunctionCode}
    (stages : ModuleCompiler.Stages c w code) :
    DraftOf { c with functions := stages.functions } code (stages.draft.extend stages.emitted) := by
  have hdrafted := Session.drafted_of_stages stages
  have hdraft := stages.drafted
  simp only [ModuleCompiler.draft, bind_eq_ok, pure_eq_ok] at hdraft
  obtain ⟨params, -, result, -, locals, hlocals, hdraft⟩ := hdraft
  refine ⟨⟨?_, rfl, hdrafted.name, hdrafted.params, hdrafted.result⟩, stages.params, stages.slots,
    stages.body, stages.ofParams, stages.resolveAll, ?_, ?_⟩
  · rw [hdrafted.id]
    exact hdrafted.lookup
  · rw [← hdraft]
    exact hlocals
  · rw [stages.body_eq]
    exact bodyCode_again stages.written (.refl _)

/-- **Drafts of a function have the same view**, whatever else is in their registries. -/
theorem DraftOf.view?_eq {c : ModuleCompiler} {functions : FunctionRegistry} {code : FunctionCode}
    {f f' : FunctionDraft} (h : DraftOf c code f) (h' : DraftOf { c with functions } code f')
    {r r' : FunctionRegistry} (hr : c.functions.Extends r) (hr' : functions.Extends r') :
    f.view? r = f'.view? r' := by
  obtain ⟨params, slots, body, hparams, hbody, hlocals, hcode⟩ := h.body
  obtain ⟨params', slots', body', hparams', hbody', hlocals', hcode'⟩ := h'.body
  cases hparams.symm.trans hparams'
  cases hbody.symm.trans hbody'
  have hname : f.name = f'.name := h.drafted.name.trans h'.drafted.name.symm
  have hsame : f.params = f'.params := Except.ok.inj (h.drafted.params.symm.trans h'.drafted.params)
  have hresult : f.result = f'.result :=
    Except.ok.inj (h.drafted.result.symm.trans h'.drafted.result)
  exact WasmBackend.view?_eq hname hsame hresult (Except.ok.inj (hlocals.symm.trans hlocals'))
    (sameCode_of_bodyCode hcode hcode' hr hr')

/-! ### Compiling functions one after the other -/

/-- The request compiles a function. -/
def Request.compiles : Request → Bool
  | .compile _ => true
  | _ => false

namespace Session

/-- All functions compile, one after the other. -/
def CompilesAll (s : Session) : List FunctionCode → Prop
  | [] => True
  | code :: rest =>
    (s.compiledBy (.compile code)).isSome = true ∧ (s.serve (.compile code)).CompilesAll rest

instance decidableCompilesAll (s : Session) :
    (codes : List FunctionCode) → Decidable (s.CompilesAll codes)
  | [] => .isTrue trivial
  | code :: rest =>
    have := decidableCompilesAll (s.serve (.compile code)) rest
    inferInstanceAs (Decidable (_ ∧ _))

/-- What is left when some functions have been compiled: their needs are met, and their drafts are
complete. Nothing else changes. -/
structure Compiling (s s' : Session) (codes : List FunctionCode) (drafts : List FunctionDraft) :
    Prop where
  compiler : s'.compiler = { s.compiler with
    functions := s.compiler.functions.needAll
      (codes.flatMap (FunctionCode.needs s.compiler.options s.compiler.types)) }
  data : s'.writer.data = s.writer.data
  current : s'.writer.current = none
  completed : s'.writer.completed = s.writer.completed ++ drafts
  drafts : List.Forall₂ (DraftOf s'.compiler) codes drafts

theorem compiling_serve {s : Session} {code : FunctionCode}
    (h : (s.compiledBy (.compile code)).isSome = true) :
    ∃ f, Compiling s (s.serve (.compile code)) [code] [f] := by
  rcases hresult : (s.compiler.compile s.writer code).result with e | id
  · simp [compiledBy, hresult] at h
  · obtain ⟨stages⟩ := ModuleCompiler.nonempty_stages hresult
    have hfunctions : stages.functions = s.compiler.functions.needAll
        ([code].flatMap (FunctionCode.needs s.compiler.options s.compiler.types)) := by
      have hbody := stages.resolveAll
      rw [functions_bodyCode stages.written, List.flatMap_singleton, FunctionCode.needs,
        ← Instruction.flatMap_needs_resolveAll code.instructions stages.params, hbody]
      rfl
    refine ⟨stages.draft.extend stages.emitted, ?_⟩
    rw [serve_of_stages stages]
    exact
      { compiler := by rw [hfunctions]
        data := by rw [ModuleWriter.data_endFunction, ModuleWriter.data_withCurrent]
        current := ModuleWriter.current_endFunction stages.ended
        completed := ModuleWriter.completed_endFunction stages.ended
        drafts := .cons (draftOf_of_stages stages) .nil }

/-- **What compiling some functions does**, if all of them compile. -/
theorem exists_compiling {s : Session} {codes : List FunctionCode} (hclosed : s.writer.current = none)
    (h : s.CompilesAll codes) : ∃ drafts, Compiling s (s.run (codes.map .compile)) codes drafts := by
  induction codes generalizing s with
  | nil => exact ⟨[], rfl, rfl, hclosed, (List.append_nil _).symm, .nil⟩
  | cons code rest ih =>
    obtain ⟨hfirst, hrest⟩ := h
    obtain ⟨f, hf⟩ := compiling_serve hfirst
    obtain ⟨drafts, hdrafts⟩ := ih hf.current hrest
    have hrun : s.run ((code :: rest).map .compile) =
        (s.serve (.compile code)).run (rest.map .compile) := rfl
    refine ⟨f :: drafts, ?_⟩
    rw [hrun]
    refine ⟨?_, hdrafts.data.trans hf.data, hdrafts.current, ?_, .cons ?_ hdrafts.drafts⟩
    · rw [hdrafts.compiler, hf.compiler, List.flatMap_singleton]
      simp only [List.flatMap_cons, FunctionRegistry.needAll_append]
    · rw [hdrafts.completed, hf.completed, List.append_assoc, List.singleton_append]
    · obtain ⟨hdraft, -⟩ := List.forall₂_cons.mp hf.drafts
      rw [hdrafts.compiler]
      exact hdraft.later (FunctionRegistry.extends_needAll _ _)

theorem run_building {s : Session} {building : List Request}
    (h : ∀ q ∈ building, q.compiles = false) :
    (s.run building).compiler.functions = s.compiler.functions ∧
      (s.run building).writer.current = s.writer.current ∧
      (s.run building).writer.completed = s.writer.completed := by
  induction building using List.reverseRecOn with
  | nil => exact ⟨rfl, rfl, rfl⟩
  | append_singleton before q ih =>
    obtain ⟨hfunctions, hcurrent, hcompleted⟩ := ih fun q' hq' => h q' (List.mem_append_left _ hq')
    have hq := h q (List.mem_append_right _ List.mem_cons_self)
    rw [run_concat, ← hfunctions, ← hcurrent, ← hcompleted]
    cases q with
    | compile code => cases hq
    | registerStruct name fields | internArray element | stringConstant value position =>
      exact ⟨rfl, rfl, rfl⟩
    | appendData bytes =>
      exact ⟨rfl, ModuleWriter.current_withData _ _, ModuleWriter.completed_withData _ _⟩

end Session

/-! ### Views of finished modules -/

theorem FunctionName.HasKnownTypes.of_declaration {types : TypeRegistry} {name name' : FunctionName}
    (h : name.HasKnownTypes types) (hsame : name.declaration = name'.declaration) :
    name'.HasKnownTypes types := by
  have hparams : name.params = name'.params := congrArg Declaration.params hsame
  have hresult : name.result = name'.result := congrArg Declaration.result hsame
  unfold FunctionName.HasKnownTypes at h ⊢
  rwa [← hparams, ← hresult]

namespace ModuleCompiler

variable {c : ModuleCompiler} {m : BinaryModule} {data : DataSection} {strings : StringPool}
  {r : FunctionRegistry}

/-- The view of a function with a body of target code. -/
def CodeView (c : ModuleCompiler) (r : FunctionRegistry) (f : Declaration × List CodeOp)
    (v : FunctionView) : Prop :=
  ∃ e d, e.name.declaration = f.1 ∧ c.codeDraft (e, f.2) = .ok d ∧ d.view? r = some v

theorem CodeView.eq {functions r' : FunctionRegistry} {f : Declaration × List CodeOp}
    {v v' : FunctionView} (h : c.CodeView r f v)
    (h' : ({ c with functions } : ModuleCompiler).CodeView r' f v') : v = v' := by
  obtain ⟨e, d, hname, hd, hv⟩ := h
  obtain ⟨e', d', hname', hd', hv'⟩ := h'
  obtain ⟨params, result, hparams, hresult, rfl⟩ := codeDraft_eq_ok hd
  obtain ⟨params', result', hparams', hresult', rfl⟩ := codeDraft_eq_ok hd'
  have hsame : e.name.declaration = e'.name.declaration := hname.trans hname'.symm
  have hfullName : e.name.fullName = e'.name.fullName := congrArg Declaration.name hsame
  have hparamTypes : e.name.params = e'.name.params := congrArg Declaration.params hsame
  have hresultType : e.name.result = e'.name.result := congrArg Declaration.result hsame
  dsimp only at hparams hresult hparams' hresult'
  rw [hparamTypes] at hparams
  rw [hresultType] at hresult
  refine Option.some.inj (hv.symm.trans (Eq.trans ?_ hv'))
  exact view?_eq hfullName (Except.ok.inj (hparams.symm.trans hparams'))
    (Except.ok.inj (hresult.symm.trans hresult')) rfl (sameCode_op f.2)

/-- **What a finished module shows:** the views of its compiled functions and those of its code
functions, in some order. -/
theorem Ready.exists_views (h : Ready c m data strings r)
    (hknown : ∀ f ∈ r.codeFunctions, f.1.name.HasKnownTypes c.types) :
    ∃ m' shown compiled code,
      c.finish (.binary m) = ⟨.ok (), { c with strings, functions := r }, .binary m'⟩ ∧
      m'.data = data ∧ List.Forall₂ (Shows r) m'.functions shown ∧
      shown.Perm (compiled ++ code) ∧
      List.Forall₂ (fun f v => f.view? r = some v) m.buffered compiled ∧
      List.Forall₂ (CodeView c r) r.codeData code := by
  obtain ⟨drafts, hdrafts⟩ := exists_codeDrafts hknown
  obtain ⟨encoded, hencoded, hfinish⟩ := h.exists_encoded hdrafts
  have hcalls := h.callsBelow hdrafts
  have hviews : ∀ f ∈ m.buffered ++ drafts,
      ∃ v, f.CallsBelow r.count ∧ f.view? r = some v := by
    intro f hf
    obtain ⟨e, -, hencode⟩ := hencoded.exists_encoded hf
    obtain ⟨v, hv⟩ := exists_view hencode
    exact ⟨v, hcalls f hf, hv⟩
  obtain ⟨compiled, hcompiled⟩ :=
    exists_forall₂ fun f hf => hviews f (List.mem_append_left _ hf)
  obtain ⟨code, hcode⟩ := exists_forall₂ fun f hf => hviews f (List.mem_append_right _ hf)
  have hencodedShown : List.Forall₂ (Shows r) encoded (compiled ++ code) := by
    refine forall₂_comp ?_ hencoded.flip (List.rel_append hcompiled hcode)
    intro e f v hencode hview
    exact shows_of_encode hview.1 hencode hview.2
  obtain ⟨shown, hshown, hperm⟩ :=
    List.perm_comp_forall₂ (List.mergeSort_perm encoded _) hencodedShown
  refine ⟨_, shown, compiled, code, hfinish, rfl, hshown, hperm, hcompiled.imp fun _ _ hv => hv.2, ?_⟩
  unfold FunctionRegistry.codeData
  rw [List.forall₂_map_left_iff]
  refine forall₂_comp ?_ hdrafts hcode
  intro f d v hdraft hview
  exact ⟨f.1, d, rfl, hdraft, hview.2⟩

theorem hasKnownTypes_of_perm {types : TypeRegistry} {r' : FunctionRegistry}
    (hperm : r.codeData.Perm r'.codeData)
    (hknown : ∀ f ∈ r.codeFunctions, f.1.name.HasKnownTypes types) :
    ∀ f ∈ r'.codeFunctions, f.1.name.HasKnownTypes types := by
  rintro ⟨e', ops⟩ he'
  obtain ⟨hmem', hbody'⟩ := FunctionRegistry.mem_codeFunctions.mp he'
  have hdata' := FunctionRegistry.mem_codeData.mpr ⟨e', hmem', rfl, hbody'⟩
  obtain ⟨e, hmem, hname, hbody⟩ := FunctionRegistry.mem_codeData.mp (hperm.mem_iff.mpr hdata')
  have hknowns := hknown _ (FunctionRegistry.mem_codeFunctions.mpr ⟨hmem, hbody⟩)
  exact hknowns.of_declaration hname

/-! ### Two orders -/

/-- The compiler once some functions are compiled, in order. -/
def needing (c : ModuleCompiler) (codes : List FunctionCode) : ModuleCompiler :=
  { c with functions := .needAll {} (codes.flatMap (FunctionCode.needs c.options c.types)) }

/-- The module holds the drafts of some functions, compiled in order. -/
structure Ordered (options : Options) (c : ModuleCompiler) (codes : List FunctionCode)
    (m : BinaryModule) : Prop where
  run : Run (.new options) .newBinary (c.needing codes) (.binary m)
  current : m.current = none
  drafts : List.Forall₂ (DraftOf (c.needing codes)) codes m.buffered

section Orders

variable {options : Options} {codes codes' : List FunctionCode} {m' : BinaryModule}

theorem answers_needing (c : ModuleCompiler) (codes : List FunctionCode) :
    FunctionRegistry.Answers (codes.flatMap (FunctionCode.needs c.options c.types))
      (c.needing codes).functions :=
  FunctionRegistry.answers_needAll _

theorem Ordered.lookup (h : Ordered options c codes m) :
    List.Forall₂ (fun name id => (c.needing codes).functions.lookup name = some id)
      (codes.map FunctionCode.name) (m.buffered.map FunctionDraft.id) := by
  rw [List.forall₂_map_left_iff, List.forall₂_map_right_iff]
  exact h.drafts.imp fun _ _ hdraft => hdraft.drafted.lookup

theorem Ordered.key_ne_offset (h : Ordered options c codes m)
    (hready : Ready (c.needing codes) m data strings r) :
    ∀ code ∈ codes, code.name.signatureName ≠ (StringPool.offsetFunction c.options).signatureName := by
  intro code hcode
  obtain ⟨f, hf, hdraft⟩ := exists_right_of_mem h.drafts hcode
  exact hready.key_ne_offset hf hdraft.drafted.lookup

/-- If the module of one order is ready, so is that of another one. -/
theorem Ordered.exists_ready (h : Ordered options c codes m) (h' : Ordered options c codes' m')
    (hperm : codes.Perm codes') (hdata : m'.data = m.data)
    (hdistinct : (codes.map fun code => code.name.signatureName).Nodup)
    (hhelper : ∀ code ∈ codes,
      code.name.signatureName ∉ ArrayProfile.helperKeys c.options c.types)
    (hready : Ready (c.needing codes) m data strings r) :
    ∃ r', Ready (c.needing codes') m' data strings r' := by
  obtain ⟨r', hpatch'⟩ := exists_patchOffset_of_perm (c := { c with strings })
    (hperm.flatMap_right _) (answers_needing c codes) (answers_needing c codes') hready.patchOffset
  have hfinalize : (c.needing codes').strings.finalize m'.data = (.ok data, strings) := by
    rw [hdata]
    exact hready.finalize
  have hsound : r'.Sound := (advances_patchOffset hpatch').sound (drafting_of_run h'.run).sound
  refine ⟨r', h'.run.ready h'.current hfinalize hpatch' ?_⟩
  refine Session.nodup_ids h'.run hpatch' hsound h'.lookup ?_ ?_
  · rw [List.map_map]
    exact (hperm.map _).nodup_iff.mp hdistinct
  · intro name hname hreserved
    obtain ⟨code, hcode, rfl⟩ := List.mem_map.mp hname
    have hmem := hperm.mem_iff.mpr hcode
    rcases List.mem_cons.mp hreserved with hoffset | hkey
    · exact h.key_ne_offset hready code hmem hoffset
    · exact hhelper code hmem hkey

theorem Ordered.perm_views (h : Ordered options c codes m) (h' : Ordered options c codes' m')
    (hperm : codes.Perm codes') {r' : FunctionRegistry}
    (hextends : (c.needing codes).functions.Extends r)
    (hextends' : (c.needing codes').functions.Extends r') {views views' : List FunctionView}
    (hviews : List.Forall₂ (fun f v => f.view? r = some v) m.buffered views)
    (hviews' : List.Forall₂ (fun f v => f.view? r' = some v) m'.buffered views') :
    views.Perm views' := by
  have hof := forall₂_comp (T := fun code v => ∃ f, DraftOf (c.needing codes) code f ∧
    f.view? r = some v) (fun _ f _ hdraft hview => ⟨f, hdraft, hview⟩) h.drafts hviews
  have hof' := forall₂_comp (T := fun code v => ∃ f, DraftOf (c.needing codes') code f ∧
    f.view? r' = some v) (fun _ f _ hdraft hview => ⟨f, hdraft, hview⟩) h'.drafts hviews'
  refine perm_of_forall₂ hperm hof hof' ?_
  rintro code v v' ⟨f, hdraft, hview⟩ ⟨f', hdraft', hview'⟩
  have hsame : f.view? r = f'.view? r' := hdraft.view?_eq hdraft' hextends hextends'
  exact Option.some.inj (hview.symm.trans (hsame.trans hview'))

/-- **Modules of two orders show the same functions.** -/
theorem Ordered.finish_perm (h : Ordered options c codes m) (h' : Ordered options c codes' m')
    (hperm : codes.Perm codes')
    (hagree : Agree c.options (codes.flatMap (FunctionCode.needs c.options c.types)))
    (hready : Ready (c.needing codes) m data strings r) {r' : FunctionRegistry}
    (hready' : Ready (c.needing codes') m' data strings r')
    (hknown : ∀ f ∈ r.codeFunctions, f.1.name.HasKnownTypes c.types) :
    ∃ finished finished' shown shown',
      (c.needing codes).finish (.binary m) =
        ⟨.ok (), { c with strings, functions := r }, .binary finished⟩ ∧
      (c.needing codes').finish (.binary m') =
        ⟨.ok (), { c with strings, functions := r' }, .binary finished'⟩ ∧
      finished.data = finished'.data ∧
      List.Forall₂ (Shows r) finished.functions shown ∧
      List.Forall₂ (Shows r') finished'.functions shown' ∧ shown.Perm shown' := by
  have hcodeData : r.codeData.Perm r'.codeData :=
    perm_codeData (c := { c with strings }) (hperm.flatMap_right _) hagree
      (answers_needing c codes) (answers_needing c codes') hready.patchOffset hready'.patchOffset
  have hknown' := hasKnownTypes_of_perm hcodeData hknown
  obtain ⟨finished, shown, compiled, code, hfinish, hdata, hshown, hall, hcompiled, hcode⟩ :=
    hready.exists_views hknown
  obtain ⟨finished', shown', compiled', code', hfinish', hdata', hshown', hall', hcompiled',
    hcode'⟩ := hready'.exists_views hknown'
  refine ⟨finished, finished', shown, shown', hfinish, hfinish', hdata.trans hdata'.symm, hshown,
    hshown', ?_⟩
  have hextends := extends_patchOffset hready.patchOffset
  have hextends' := extends_patchOffset hready'.patchOffset
  have hcompiledPerm := h.perm_views h' hperm hextends hextends' hcompiled hcompiled'
  have hcodePerm : code.Perm code' :=
    perm_of_forall₂ hcodeData hcode hcode' fun _ _ _ hview hview' => hview.eq hview'
  exact hall.trans ((hcompiledPerm.append hcodePerm).trans hall'.symm)

end Orders

end ModuleCompiler

namespace Session

variable {options : Options} {building : List Request}

/-- Compiling functions in order, in a session in which nothing was compiled before. -/
theorem exists_ordered (hbuilding : ∀ q ∈ building, q.compiles = false) {codes : List FunctionCode}
    (hall : ((new options).run building).CompilesAll codes) :
    ∃ m, ((new options).run building).run (codes.map .compile) =
        ⟨((new options).run building).compiler.needing codes, .binary m⟩ ∧
      m.data = ((new options).run building).writer.data ∧
      ModuleCompiler.Ordered options ((new options).run building).compiler codes m := by
  obtain ⟨hfunctions, hcurrent, hcompleted⟩ := run_building (s := new options) hbuilding
  obtain ⟨drafts, hcompiling⟩ := exists_compiling hcurrent hall
  have hrun := (new options).run_of_session (building ++ codes.map .compile)
  rw [run_append] at hrun
  have hcompiler := hcompiling.compiler
  rw [hfunctions] at hcompiler
  rcases hs : ((new options).run building).run (codes.map .compile) with ⟨c, w⟩
  rw [hs] at hrun hcompiler hcompiling
  obtain rfl : c = ((new options).run building).compiler.needing codes := hcompiler
  have hwriter := (ModuleCompiler.drafting_of_run hrun).writer
  cases w with
  | text m => exact hwriter.elim
  | binary m =>
    have hbuffered : m.buffered = drafts := by
      have hall := hcompiling.completed
      rw [hcompleted] at hall
      exact hall
    exact ⟨m, rfl, hcompiling.data, hrun, hcompiling.current, hbuffered ▸ hcompiling.drafts⟩

/-- **The order of compilation does not change the functions of a module.** Functions with different
names are compiled in two orders, in a session in which only classes, string constants and data were
added before. All functions compile in both orders, no function has the name of a helper, array
classes have different names, and calls are harmless. If the module can be finished after one order,
then also after the other one, with the same data and the same functions, up to the indices of
callees. -/
theorem finish_order (hbuilding : ∀ q ∈ building, q.compiles = false)
    {codes codes' : List FunctionCode} (hperm : codes.Perm codes')
    (hdistinct : (codes.map fun code => code.name.signatureName).Nodup)
    (harrays : (((new options).run building).compiler.types.arrays.map ArrayClass.name).Nodup)
    (hhelper : ∀ code ∈ codes, code.name.signatureName ∉
      ArrayProfile.helperKeys options ((new options).run building).compiler.types)
    (hcalled : ∀ code ∈ codes, ∀ name ∈ code.called options,
      name.Harmless options ((new options).run building).compiler.types)
    (hall : ((new options).run building).CompilesAll codes)
    (hall' : ((new options).run building).CompilesAll codes')
    (hfinish : (((new options).run building).run (codes.map .compile)).finish.result = .ok ()) :
    let f := (((new options).run building).run (codes.map .compile)).finish
    let f' := (((new options).run building).run (codes'.map .compile)).finish
    f'.result = .ok () ∧ ∃ m m' shown shown', f.writer = .binary m ∧ f'.writer = .binary m' ∧
      m.data = m'.data ∧ List.Forall₂ (Shows f.compiler.functions) m.functions shown ∧
      List.Forall₂ (Shows f'.compiler.functions) m'.functions shown' ∧ shown.Perm shown' := by
  intro f f'
  have hbuild := (new options).run_of_session building
  have hoptions : ((new options).run building).compiler.options = options := hbuild.keeps.options
  obtain ⟨m, hrun, hdata, hordered⟩ := exists_ordered hbuilding hall
  obtain ⟨m', hrun', hdata', hordered'⟩ := exists_ordered hbuilding hall'
  generalize hc : ((new options).run building).compiler = c at *
  rw [hrun] at hfinish
  -- the first module is ready because it can be finished, and this makes the second one ready
  obtain ⟨data, strings, r, hready⟩ := hordered.run.exists_ready hordered.current hfinish
  have hknown := hready.finish_ok_iff.mp hfinish
  rw [← hoptions] at hhelper hcalled
  obtain ⟨r', hready'⟩ := hordered.exists_ready hordered' hperm (hdata'.trans hdata.symm) hdistinct
    hhelper hready
  have hgrows : TypeRegistry.Grows (ModuleCompiler.new options).types c.types := hc ▸ hbuild.grows
  have hagree := agree_needs (TypeRegistry.wellFormed_of_grows hgrows)
    (TypeRegistry.named_of_grows hgrows) harrays hhelper (hordered.key_ne_offset hready) hcalled
  obtain ⟨finished, finished', shown, shown', hfinished, hfinished', hsame⟩ :=
    hordered.finish_perm hordered' hperm hagree hready hready' hknown
  have hf : f = (c.needing codes).finish (.binary m) := by
    show Session.finish _ = _
    rw [hrun]
    rfl
  have hf' : f' = (c.needing codes').finish (.binary m') := by
    show Session.finish _ = _
    rw [hrun']
    rfl
  rw [hf, hf', hfinished, hfinished']
  exact ⟨rfl, finished, finished', shown, shown', rfl, rfl, hsame⟩

/-! ### Signatures -/

/-- Name and types of a function. -/
structure Signature where
  name : String
  params : List WasmType
  result : Option WasmType
  deriving DecidableEq

/-- The signatures of the functions that a session writes: of those that are complete, and of the code
functions that are written when the module is finished. -/
def signatures (s : Session) : Except CompileError (List Signature) := do
  let (table, strings) := s.compiler.strings.finalize s.writer.data
  let _ ← table
  let r ← ({ s.compiler with strings } : ModuleCompiler).patchOffset
  let drafts ← r.codeFunctions.mapM s.compiler.codeDraft
  return (s.writer.completed ++ drafts).map fun f => ⟨f.name, f.params, f.result⟩

/-- The finished module has the functions with these signatures. -/
theorem finish_signatures {requests : List Request} (hclean : (new options).Clean requests)
    (hdistinct : (((new options).compiled requests).map fun f => f.1.signatureName).Nodup)
    (hkeys : ∀ f ∈ (new options).compiled requests,
      f.1.signatureName ∉ reservedKeys ((new options).run requests).compiler)
    (hsize : ((new options).run requests).writer.data.size +
      StringPool.tableSize ((new options).run requests).compiler.strings.strings < 0x80000000)
    {expected : List Signature}
    (hexpected : ((new options).run requests).signatures = .ok expected) :
    ((new options).run requests).finish.result = .ok () ∧
      ∃ m, ((new options).run requests).finish.writer = .binary m ∧
        (m.functions.map fun e => ⟨e.name, e.params, e.result⟩).Perm expected := by
  obtain ⟨m, data, strings, r, hwriter, hready, -⟩ := exists_ready hclean hdistinct hkeys hsize
  have hfinish : ((new options).run requests).finish =
      ((new options).run requests).compiler.finish (.binary m) := by
    rw [← hwriter]
    rfl
  simp only [signatures, hwriter, ModuleWriter.data, ModuleWriter.completed, hready.finalize,
    bind_eq_ok, pure_eq_ok] at hexpected
  obtain ⟨-, -, r', hpatch, drafts, hdrafts, rfl⟩ := hexpected
  obtain rfl : r = r' := Except.ok.inj (hready.patchOffset.symm.trans hpatch)
  obtain ⟨encoded, hencoded, hfinished⟩ := hready.exists_encoded (mapM_eq_ok.mp hdrafts)
  rw [hfinish, hfinished]
  refine ⟨rfl, _, rfl, ((List.mergeSort_perm encoded _).map _).trans (List.Perm.of_eq ?_)⟩
  refine (map_eq_map_of_forall₂ hencoded fun f e hencode => ?_).symm
  obtain ⟨ops, hfinishes⟩ := FunctionDraft.encode_eq_ok hencode
  rw [hfinishes.name, hfinishes.params, hfinishes.result]

/-- A procedure of the main class without parameters. -/
def procedure (methodName : String) (instructions : List Instruction) : FunctionCode where
  name := { className := "Main", methodName, signature := "()V", params := [], result := none }
  instructions := instructions

/-- A session with arrays of integers and one string constant. -/
def arraysAndString : List Request :=
  [.internArray (.value .i32), .stringConstant "on" .unknown]

/-- Allocates an array and loads a string. -/
def allocating : FunctionCode :=
  procedure "allocate"
    [⟨.unknown, .const (.i32 3)⟩, ⟨.unknown, .array .new (.value .i32) 0⟩,
      ⟨.unknown, .control .drop (some (.array 0)) 0⟩,
      ⟨.unknown, .stringConst 0 TypeRegistry.stringType⟩,
      ⟨.unknown, .control .drop (some TypeRegistry.stringType) 0⟩]

/-- Calls the procedure that allocates an array. -/
def delegating : FunctionCode := procedure "run" [⟨.unknown, .call allocating.name none⟩]

/-- The module of the procedures has the same functions if they are compiled in the other order. -/
theorem finish_order_delegating :
    let s := (new { useGc := true }).run arraysAndString
    let f := (s.run ([allocating, delegating].map .compile)).finish
    let f' := (s.run ([delegating, allocating].map .compile)).finish
    f.result = .ok () ∧ f'.result = .ok () ∧
      ∃ m m' shown shown', f.writer = .binary m ∧ f'.writer = .binary m' ∧ m.data = m'.data ∧
        List.Forall₂ (Shows f.compiler.functions) m.functions shown ∧
        List.Forall₂ (Shows f'.compiler.functions) m'.functions shown' ∧ shown.Perm shown' := by
  have hsignatures : ((new { useGc := true }).run
      (arraysAndString ++ [allocating, delegating].map .compile)).signatures =
        .ok [⟨"Main.allocate", [], none⟩, ⟨"Main.run", [], none⟩,
          ⟨"jwasm/runtime/Arrays.array_new_i32", [.value .i32], some (.ref 2)⟩,
          ⟨"jwasm/runtime/StringTable.stringsMemoryOffset", [], some (.value .i32)⟩] := by
    decide +kernel
  have hfinish := (finish_signatures (by decide +kernel) (by decide +kernel) (by decide +kernel)
    (by decide +kernel) hsignatures).1
  rw [run_append] at hfinish
  have hbuilding : ∀ q ∈ arraysAndString, q.compiles = false := by decide +kernel
  have hperm : [allocating, delegating].Perm [delegating, allocating] := .swap _ _ _
  have horder := finish_order hbuilding hperm (by decide +kernel) (by decide +kernel)
    (by decide +kernel) (by decide +kernel) (by decide +kernel) (by decide +kernel) hfinish
  exact ⟨hfinish, horder⟩

/-- Calls the helper that allocates arrays, and the function that gives the offset of the string table
with another type of result. -/
def interfering : FunctionCode :=
  procedure "copy"
    [⟨.unknown, .const (.i32 3)⟩,
      ⟨.unknown, .call
        { className := ArrayProfile.helperClass, methodName := "array_new_i32", signature := "(I)[I"
          params := [.i32], result := some (.array 0) } (some (.array 0))⟩,
      ⟨.unknown, .control .drop (some (.array 0)) 0⟩,
      ⟨.unknown, .call { StringPool.offsetFunction {} with result := some (.value .i64) }
        (some (.value .i64))⟩,
      ⟨.unknown, .control .drop (some (.value .i64)) 0⟩]

/-- **The order of compilation changes the functions of a module if calls interfere.** All conditions
hold but that on calls. If the call of the helper is compiled first, the helper has no body, and the
function that gives the offset has the other type of result. -/
theorem functions_of_interfering :
    let s := (new { useGc := true }).run arraysAndString
    let f := (s.run ([allocating, interfering].map .compile)).finish
    let f' := (s.run ([interfering, allocating].map .compile)).finish
    [allocating, interfering].Perm [interfering, allocating] ∧
      ([allocating, interfering].map fun code => code.name.signatureName).Nodup ∧
      (s.compiler.types.arrays.map ArrayClass.name).Nodup ∧
      (∀ code ∈ [allocating, interfering], code.name.signatureName ∉
        ArrayProfile.helperKeys { useGc := true } s.compiler.types) ∧
      s.CompilesAll [allocating, interfering] ∧ s.CompilesAll [interfering, allocating] ∧
      f.result = .ok () ∧ f'.result = .ok () ∧
      ∃ m m', f.writer = .binary m ∧ f'.writer = .binary m' ∧
        (m.functions.map fun e => (⟨e.name, e.params, e.result⟩ : Signature)).Perm
          [⟨"Main.allocate", [], none⟩, ⟨"Main.copy", [], none⟩,
            ⟨"jwasm/runtime/Arrays.array_new_i32", [.value .i32], some (.ref 2)⟩,
            ⟨"jwasm/runtime/StringTable.stringsMemoryOffset", [], some (.value .i32)⟩] ∧
        (m'.functions.map fun e => (⟨e.name, e.params, e.result⟩ : Signature)).Perm
          [⟨"Main.copy", [], none⟩, ⟨"Main.allocate", [], none⟩,
            ⟨"jwasm/runtime/StringTable.stringsMemoryOffset", [], some (.value .i64)⟩] := by
  intro s f f'
  have hsignatures : ((new { useGc := true }).run
      (arraysAndString ++ [allocating, interfering].map .compile)).signatures =
        .ok [⟨"Main.allocate", [], none⟩, ⟨"Main.copy", [], none⟩,
          ⟨"jwasm/runtime/Arrays.array_new_i32", [.value .i32], some (.ref 2)⟩,
          ⟨"jwasm/runtime/StringTable.stringsMemoryOffset", [], some (.value .i32)⟩] := by
    decide +kernel
  have hsignatures' : ((new { useGc := true }).run
      (arraysAndString ++ [interfering, allocating].map .compile)).signatures =
        .ok [⟨"Main.copy", [], none⟩, ⟨"Main.allocate", [], none⟩,
          ⟨"jwasm/runtime/StringTable.stringsMemoryOffset", [], some (.value .i64)⟩] := by
    decide +kernel
  have hfirst := finish_signatures (by decide +kernel) (by decide +kernel) (by decide +kernel)
    (by decide +kernel) hsignatures
  have hsecond := finish_signatures (by decide +kernel) (by decide +kernel) (by decide +kernel)
    (by decide +kernel) hsignatures'
  rw [run_append] at hfirst hsecond
  obtain ⟨hresult, m, hwriter, hfunctions⟩ := hfirst
  obtain ⟨hresult', m', hwriter', hfunctions'⟩ := hsecond
  exact ⟨.swap _ _ _, by decide +kernel, by decide +kernel, by decide +kernel, by decide +kernel,
    by decide +kernel, hresult, hresult', m, m', hwriter, hwriter', hfunctions, hfunctions'⟩

end Session

end WasmBackend
