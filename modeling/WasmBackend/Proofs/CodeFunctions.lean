import WasmBackend.Proofs.CodeSection
import WasmBackend.Proofs.CompileVerdict
import WasmBackend.Proofs.FunctionNeeds
import WasmBackend.Proofs.StringLiterals

/-! # Functions with a body of target code

When a module is finished, the functions of the registry whose body is target code are written behind
the compiled ones. They are the allocation helpers and the function that gives the offset of the string
table, which gets its body only then (`codeFunction_cases`). A helper has known types; the other
function has those of whoever asked for it first, and if they are not known the module cannot be
finished (`exists_codeDraft_iff`). -/

namespace WasmBackend

/-! ### Names with known types -/

namespace TypeRegistry

variable {t : TypeRegistry}

theorem knows_of_lower {ty : OperandType} {w : WasmType} (h : t.lower ty = .ok w) : t.Knows ty := by
  cases ty with
  | value ty => trivial
  | struct id =>
    obtain ⟨s, hs, -⟩ := map_eq_ok.mp h
    exact (List.getElem?_eq_some_iff.mp (structClass_eq_ok.mp hs)).1
  | array id =>
    obtain ⟨a, ha, -⟩ := map_eq_ok.mp h
    exact (List.getElem?_eq_some_iff.mp (arrayClass_eq_ok.mp ha)).1

theorem knows_of_lowerAll {tys : List OperandType} {ws : List WasmType}
    (h : t.lowerAll tys = .ok ws) : ∀ ty ∈ tys, t.Knows ty := by
  intro ty hty
  obtain ⟨w, -, hw⟩ := exists_right_of_mem (mapM_eq_ok.mp h) hty
  exact knows_of_lower hw

theorem knows_of_lowerResult {result : Option OperandType} {w : Option WasmType}
    (h : t.lowerResult result = .ok w) : ∀ ty ∈ result, t.Knows ty := by
  rintro ty ⟨⟩
  obtain ⟨w', hw', -⟩ := map_eq_ok.mp h
  exact knows_of_lower hw'

end TypeRegistry

/-- The classes in the signature of a function are registered. -/
def FunctionName.HasKnownTypes (types : TypeRegistry) (name : FunctionName) : Prop :=
  (∀ ty ∈ name.params, types.Knows ty) ∧ ∀ ty ∈ name.result, types.Knows ty

instance (types : TypeRegistry) (name : FunctionName) : Decidable (name.HasKnownTypes types) :=
  inferInstanceAs (Decidable (_ ∧ ∀ ty ∈ name.result, types.Knows ty))

/-! ### Replaced bodies -/

namespace FunctionRegistry

theorem mem_codeFunctions {r : FunctionRegistry} {e : FunctionEntry} {ops : List CodeOp} :
    (e, ops) ∈ r.codeFunctions ↔ e ∈ r.entries ∧ e.body = some (.code ops) := by
  unfold codeFunctions
  rw [List.mem_filterMap]
  constructor
  · rintro ⟨e', he', hbody⟩
    split at hbody
    · next hcode =>
      cases hbody
      exact ⟨he', hcode⟩
    · cases hbody
  · rintro ⟨he, hbody⟩
    exact ⟨e, he, by rw [hbody]⟩

theorem sublist_codeFunctions (r : FunctionRegistry) :
    (r.codeFunctions.map Prod.fst).Sublist r.entries := by
  unfold codeFunctions
  induction r.entries with
  | nil => exact .slnil
  | cons e rest ih =>
    rw [List.filterMap_cons]
    split
    · exact ih.cons _
    · next hsome =>
      split at hsome
      · cases hsome
        exact ih.cons_cons _
      · cases hsome

theorem Sound.nodup_codeFunctions {r : FunctionRegistry} (h : r.Sound) :
    (r.codeFunctions.map fun f => f.1.id).Nodup := by
  have hsub := r.sublist_codeFunctions.map FunctionEntry.id
  rw [h.numbered, List.map_map] at hsub
  exact hsub.nodup List.nodup_range

/-- What is in a registry after the body of a function was replaced. -/
theorem mem_markReplacing {r : FunctionRegistry} {name : FunctionName} {body : FunctionBody}
    (hnodup : (r.entries.map fun e => e.name.signatureName).Nodup) {e : FunctionEntry}
    (he : e ∈ (r.markReplacing name body).2.entries) :
    (e ∈ r.entries ∧ e.name.signatureName ≠ name.signatureName) ∨
      (e.name.signatureName = name.signatureName ∧ e.body = some body ∧
        (e.name = name ∧ r.lookup name = none ∨ ∃ e₀ ∈ r.entries, e₀.name = e.name)) := by
  unfold FunctionRegistry.markReplacing at he
  split at he
  · next id hid =>
    obtain ⟨e₀, he₀, hname⟩ := signatureName_of_lookup hid
    obtain ⟨place, hplace⟩ := List.getElem?_of_mem he
    rw [List.getElem?_modify] at hplace
    obtain ⟨old, hold, rfl⟩ := Option.map_eq_some_iff.mp hplace
    split_ifs with hsame
    · obtain rfl := hsame
      cases he₀.symm.trans hold
      exact .inr ⟨hname, rfl, .inr ⟨e₀, List.mem_of_getElem? he₀, rfl⟩⟩
    · refine .inl ⟨List.mem_of_getElem? hold, fun hother => hsame ?_⟩
      have hlt := (List.getElem?_eq_some_iff.mp he₀).1
      refine (List.getElem?_inj (by rwa [List.length_map]) hnodup).mp ?_
      rw [List.getElem?_map, List.getElem?_map, he₀, hold, Option.map_some, Option.map_some, hname,
        hother]
  · next hnone =>
    rcases List.mem_append.mp he with hold | hnew
    · exact .inl ⟨hold, lookup_eq_none_iff.mp hnone e hold⟩
    · obtain rfl := List.mem_singleton.mp hnew
      exact .inr ⟨rfl, rfl, .inl ⟨rfl, hnone⟩⟩

theorem exists_mem_markReplacing {r : FunctionRegistry} {name : FunctionName} (body : FunctionBody)
    (hnodup : (r.entries.map fun e => e.name.signatureName).Nodup) {e₀ : FunctionEntry}
    (he₀ : e₀ ∈ r.entries) (hname : e₀.name.signatureName = name.signatureName) :
    ∃ e ∈ (r.markReplacing name body).2.entries, e.name = e₀.name ∧ e.body = some body := by
  obtain ⟨e, he, hbody⟩ := get?_markReplacing r name body
  obtain ⟨e', he', hname'⟩ := signatureName_of_lookup (lookup_markReplacing r name body)
  have hmem := List.mem_of_getElem? he'
  cases he.symm.trans he'
  refine ⟨e, hmem, ?_, hbody⟩
  rcases mem_markReplacing hnodup hmem with ⟨-, hother⟩ | ⟨-, -, ⟨-, hnone⟩ | ⟨e₁, he₁, hsame⟩⟩
  · exact absurd hname' hother
  · exact absurd hname (lookup_eq_none_iff.mp hnone e₀ he₀)
  · rw [← hsame, List.inj_on_of_nodup_map hnodup he₁ he₀ (by rw [hsame, hname', hname])]

theorem mem_markReplacing_of_ne {r : FunctionRegistry} {name : FunctionName} (body : FunctionBody)
    {e : FunctionEntry} (he : e ∈ r.entries) (hname : e.name.signatureName ≠ name.signatureName) :
    e ∈ (r.markReplacing name body).2.entries := by
  unfold FunctionRegistry.markReplacing
  split
  · next id hid =>
    obtain ⟨e₀, he₀, hname₀⟩ := signatureName_of_lookup hid
    obtain ⟨place, hplace⟩ := List.getElem?_of_mem he
    refine List.mem_of_getElem? (i := place) ?_
    have hother : id ≠ place := by
      rintro rfl
      cases he₀.symm.trans hplace
      exact hname hname₀
    rw [List.getElem?_modify, hplace]
    simp [hother]
  · exact List.mem_append_left _ he

end FunctionRegistry

/-! ### Bodies -/

theorem Opcode.length_encode_le (op : Opcode) : op.encode.length ≤ 3 := by
  have hcode : (Leb128.encodeNat op.code.toNat).length ≤ 2 := by
    have hlt := op.code.toNat_lt
    exact Leb128.length_encodeNat_le (by omega)
  unfold Opcode.encode
  split
  · rw [List.length_cons]
    omega
  · rw [List.length_singleton]
    omega

theorem length_encodeIndex_le {index : Nat} (h : index < 0x100000000) :
    (Leb128.encodeNat index).length ≤ 5 :=
  Leb128.length_encodeNat_le (by omega)

/-- An instruction takes at most sixteen bytes if its indices are words. -/
theorem TargetOp.length_encode_le {op : TargetOp} (h : ∀ index ∈ op.indices, index < 0x100000000) :
    op.encode.length ≤ 16 := by
  cases op with
  | plain op =>
    have hop := op.length_encode_le
    simp only [TargetOp.encode]
    omega
  | i32Const v =>
    have hop := Opcode.i32Const.length_encode_le
    have hlow := v.le_toInt
    have hhigh := v.toInt_lt
    have hv : (Leb128.encodeInt v.toInt).length ≤ 4 + 1 :=
      Leb128.length_encodeInt_le (by omega) (by omega)
    simp only [TargetOp.encode, List.length_append]
    omega
  | i64Const v =>
    have hop := Opcode.i64Const.length_encode_le
    have hlow := v.le_toInt
    have hhigh := v.toInt_lt
    have hv : (Leb128.encodeInt v.toInt).length ≤ 9 + 1 :=
      Leb128.length_encodeInt_le (by omega) (by omega)
    simp only [TargetOp.encode, List.length_append]
    omega
  | f32Const v =>
    have hop := Opcode.f32Const.length_encode_le
    simp only [TargetOp.encode, encodeWord32, List.length_append, length_littleEndian]
    omega
  | f64Const v =>
    have hop := Opcode.f64Const.length_encode_le
    simp only [TargetOp.encode, encodeWord64, List.length_append, length_littleEndian]
    omega
  | indexed op index =>
    have hop := op.length_encode_le
    have hindex := length_encodeIndex_le (h index (by simp))
    simp only [TargetOp.encode, List.length_append]
    omega
  | structGet typeIndex field =>
    have hop := Opcode.structGet.length_encode_le
    have htype := length_encodeIndex_le (h typeIndex (by simp))
    have hfield := length_encodeIndex_le (h field (by simp))
    simp only [TargetOp.encode, List.length_append]
    omega
  | block op =>
    have hop := op.length_encode_le
    simp only [TargetOp.encode, List.length_append, List.length_singleton]
    omega

theorem length_flatMap_encode_le {ops : List TargetOp}
    (h : ∀ op ∈ ops, ∀ index ∈ op.indices, index < 0x100000000) :
    (ops.flatMap TargetOp.encode).length ≤ 16 * ops.length := by
  induction ops with
  | nil => exact Nat.le_refl 0
  | cons op rest ih =>
    have hop := TargetOp.length_encode_le (h op List.mem_cons_self)
    have hrest := ih fun op' hop' => h op' (List.mem_cons_of_mem _ hop')
    rw [List.flatMap_cons, List.length_append, List.length_cons]
    omega

theorem decodeFunction_of_short {ops : List TargetOp} (hlength : ops.length ≤ 0x1000)
    (hops : ∀ op ∈ ops, op.WellShaped) :
    decodeFunction (functionBytes [] ops) = some { locals := [], code := ops } := by
  refine decodeFunction_functionBytes (by simp) (by simp) hops ?_
  have hcode := length_flatMap_encode_le fun op hop => (hops op hop).2
  have hend := Opcode.endBlock.length_encode_le
  have hlocals : (encodeLocals []).length = 1 := by decide +kernel
  have hbody : (functionBody [] ops).length ≤ 0x20000 := by
    simp only [functionBody, List.length_append]
    omega
  have hsize : (Leb128.encodeNat (functionBody [] ops).length).length ≤ 5 :=
    length_encodeIndex_le (by omega)
  rw [functionBytes, List.length_append]
  omega

/-- The code of a function is a few instructions, and they have words as indices if types have. -/
structure PlainCode (types : TypeRegistry) (ops : List CodeOp) (instrs : List TargetOp) : Prop where
  code : ops = instrs.map .target
  short : instrs.length ≤ 6
  wellShaped : types.nextTypeIndex ≤ 0x100000000 → ∀ instr ∈ instrs, instr.WellShaped

theorem PlainCode.decodeFunction {types : TypeRegistry} {ops : List CodeOp} {instrs : List TargetOp}
    (h : PlainCode types ops instrs) (hindices : types.nextTypeIndex ≤ 0x100000000) :
    decodeFunction (functionBytes [] instrs) = some { locals := [], code := instrs } :=
  decodeFunction_of_short (Nat.le_trans h.short (by omega)) (h.wellShaped hindices)

theorem plainCode_constant (types : TypeRegistry) (value : Int32) :
    PlainCode types [TargetOp.i32Const value, TargetOp.plain .ret] [.i32Const value, .plain .ret] := by
  refine ⟨rfl, by simp, fun _ instr hinstr => ?_⟩
  simp only [List.mem_cons, List.not_mem_nil, or_false] at hinstr
  rcases hinstr with rfl | rfl <;> simp [TargetOp.WellShaped]

theorem TypeRegistry.WellFormed.typeIndex_lt {types : TypeRegistry} (h : types.WellFormed)
    {a : ArrayClass} (ha : a ∈ types.arrays) {index : Nat} {d : TypeDef}
    (hd : (index, d) ∈ classDefs a) : index < types.nextTypeIndex := by
  have hmem : index ∈ types.typeSection.map Prod.fst :=
    List.mem_map.mpr ⟨_, List.mem_append_right _ (List.mem_flatMap.mpr ⟨a, ha, hd⟩), rfl⟩
  exact List.mem_range.mp (h.indices.mem_iff.mp hmem)

namespace ArrayProfile

variable {options : Options} {types : TypeRegistry}

theorem hostHelper_body {op : ArrayOp} {a : ArrayClass} {name : FunctionName} {body : FunctionBody}
    (h : hostHelper op a types options = .ok (name, body)) :
    ∃ script, body = .hostScript options.hostModule script := by
  cases op with
  | new | newWithDescriptor =>
    obtain ⟨element, -, h⟩ := bind_eq_ok.mp h
    obtain ⟨name, -, h⟩ := bind_eq_ok.mp h
    cases h
    exact ⟨_, rfl⟩
  | _ =>
    obtain ⟨name, -, h⟩ := bind_eq_ok.mp h
    cases h
    exact ⟨_, rfl⟩

/-- A helper with a body of target code is an allocation on native arrays. -/
theorem helper?_code {op : ArrayOp} {a : ArrayClass} {name : FunctionName} {ops : List CodeOp}
    (h : helper? op a types options = .ok (some (name, .code ops))) :
    ∃ native instr params, a.native? = some native ∧ .code ops = allocation instr a native ∧
      (instr = .i32Const (Int32.ofNat a.vtable) ∨ instr = .indexed .localGet 1) ∧
      name.params = params ∧ (∀ ty ∈ params, ty = .i32) ∧ name.result = some a.operandType := by
  unfold helper? at h
  split_ifs at h
  · obtain ⟨native, hnative, h⟩ := bind_eq_ok.mp h
    obtain ⟨element, -, h⟩ := bind_eq_ok.mp h
    have hsome : a.native? = some native := by
      unfold ArrayClass.native at hnative
      split at hnative
      · next hsome =>
        cases hnative
        exact hsome
      · cases hnative
    cases op with
    | new =>
      obtain ⟨_, hname, h⟩ := bind_eq_ok.mp h
      obtain ⟨signature, rfl⟩ := ArrayProgram.helperName_eq_ok hname
      cases h
      exact ⟨native, _, _, hsome, rfl, .inl rfl, rfl, by simp, rfl⟩
    | newWithDescriptor =>
      obtain ⟨_, hname, h⟩ := bind_eq_ok.mp h
      obtain ⟨signature, rfl⟩ := ArrayProgram.helperName_eq_ok hname
      cases h
      exact ⟨native, _, _, hsome, rfl, .inr rfl, rfl, by simp, rfl⟩
    | _ => cases h
  · obtain ⟨helper, hhelper, hsome⟩ := map_eq_ok.mp h
    cases hsome
    obtain ⟨script, hscript⟩ := hostHelper_body hhelper
    cases hscript

/-- A helper with a body of target code has known types and plain code. -/
theorem helperOf_code (hwf : types.WellFormed) {q : ArrayOp × Nat} {name : FunctionName}
    {ops : List CodeOp} (h : helperOf options types q = some (name, .code ops)) :
    name.HasKnownTypes types ∧ ∃ instrs, PlainCode types ops instrs := by
  obtain ⟨a, ha, hhelper⟩ := helperOf_eq_some.mp h
  obtain ⟨-, hplace⟩ := id_of_arrayClass hwf ha
  obtain ⟨native, instr, params, hnative, hcode, hinstr, rfl, hparams, hresult⟩ := helper?_code hhelper
  have hmem := List.mem_of_getElem? hplace
  refine ⟨⟨fun ty hty => ?_, fun ty hty => ?_⟩, ?_⟩
  · rw [hparams ty hty]
    trivial
  · rw [hresult] at hty
    cases hty
    exact (List.getElem?_eq_some_iff.mp hplace).1
  · cases hcode
    refine ⟨[instr, .i32Const 0, .indexed .localGet 0, .indexed .arrayNewDefault native.typeIndex,
      .indexed .structNew a.typeIndex, .plain .ret], rfl, by simp, fun hindices => ?_⟩
    have hbuffer : native.typeIndex < types.nextTypeIndex :=
      hwf.typeIndex_lt hmem (d := .buffer native.storage) (by simp [TypeRegistry.classDefs, hnative])
    have hwrapper : a.typeIndex < types.nextTypeIndex :=
      hwf.typeIndex_lt hmem (d := .wrapper [.value .i32, .value .i32, .ref native.typeIndex])
        (by simp [TypeRegistry.classDefs, hnative])
    intro instr' hinstr'
    rcases List.mem_cons.mp hinstr' with rfl | hrest
    · rcases hinstr with rfl | rfl <;> simp [TargetOp.WellShaped]
    · simp only [List.mem_cons, List.not_mem_nil, or_false] at hrest
      rcases hrest with rfl | rfl | rfl | rfl | rfl
      · simp [TargetOp.WellShaped]
      · simp [TargetOp.WellShaped]
      · exact ⟨rfl, by simp; omega⟩
      · exact ⟨rfl, by simp; omega⟩
      · simp [TargetOp.WellShaped]

end ArrayProfile

namespace ModuleCompiler

/-! ### The registry of a finished module -/

variable {c : ModuleCompiler} {r : FunctionRegistry}

/-- Nothing asks for the offset of the string table. -/
def NoOffset (c : ModuleCompiler) : Prop :=
  c.strings.strings = [] ∧ c.functions.lookup (StringPool.offsetFunction c.options) = none

/-- The function that gives the offset of the string table gets its body if something asks for it. -/
theorem patchOffset_eq_ok :
    c.patchOffset = .ok r ↔
      (c.NoOffset ∧ r = c.functions) ∨
        (¬ c.NoOffset ∧ c.strings.baseOffset.getD 0 < 0x80000000 ∧
          r = (c.functions.markReplacing (StringPool.offsetFunction c.options)
            (StringPool.constantBody (Int32.ofNat (c.strings.baseOffset.getD 0)))).2) := by
  have hunused : (c.strings.strings.isEmpty &&
      (c.functions.lookup (StringPool.offsetFunction c.options)).isNone) = true ↔ c.NoOffset := by
    rw [Bool.and_eq_true, List.isEmpty_iff, Option.isNone_iff_eq_none]
    rfl
  unfold patchOffset
  dsimp only
  by_cases hno : c.NoOffset
  · rw [if_pos (hunused.mpr hno)]
    simp [hno, eq_comm]
  · rw [if_neg (fun hpos => hno (hunused.mp hpos))]
    simp only [hno, not_false_eq_true, false_and, true_and, false_or, bind_eq_ok, pure_eq_ok]
    constructor
    · rintro ⟨body, hbody, rfl⟩
      obtain ⟨hlt, rfl⟩ := StringPool.offsetBody_eq_ok hbody
      exact ⟨hlt, rfl⟩
    · rintro ⟨hlt, rfl⟩
      exact ⟨_, if_pos hlt, rfl⟩

theorem exists_patchOffset (h : c.strings.baseOffset.getD 0 < 0x80000000) :
    ∃ r, c.patchOffset = .ok r := by
  by_cases hno : c.NoOffset
  · exact ⟨_, patchOffset_eq_ok.mpr (.inl ⟨hno, rfl⟩)⟩
  · exact ⟨_, patchOffset_eq_ok.mpr (.inr ⟨hno, h, rfl⟩)⟩

/-- **Which functions have a body of target code:** allocation helpers, and the function that gives the
offset of the string table, under the name by which it was first asked for. -/
theorem Run.codeFunction_cases {options : Options} {w₀ w : ModuleWriter}
    (hrun : Run (.new options) w₀ c w) {strings : StringPool}
    (hpatch : ({ c with strings } : ModuleCompiler).patchOffset = .ok r) {e : FunctionEntry}
    {ops : List CodeOp} (he : (e, ops) ∈ r.codeFunctions) :
    (e ∈ c.functions.entries ∧
        e.name.signatureName ≠ (StringPool.offsetFunction options).signatureName ∧
        ∃ q, ArrayProfile.helperOf options c.types q = some (e.name, .code ops)) ∨
      (e.name.signatureName = (StringPool.offsetFunction options).signatureName ∧
        ops = [TargetOp.i32Const (Int32.ofNat (strings.baseOffset.getD 0)), TargetOp.plain .ret] ∧
        (e.name = StringPool.offsetFunction options ∨
          ∃ e₀ ∈ c.functions.entries, e₀.name = e.name)) := by
  obtain ⟨needs, hneeds, hallowed⟩ := hrun.answers
  have hanswers := FunctionRegistry.answers_needAll needs
  rw [← hneeds] at hanswers
  have hoptions : c.options = options := hrun.keeps.options
  obtain ⟨hmem, hbody⟩ := FunctionRegistry.mem_codeFunctions.mp he
  -- a function that is not patched has the body that was asked for
  have hhelper : e ∈ c.functions.entries →
      e.name.signatureName ≠ (StringPool.offsetFunction options).signatureName →
      ∃ q, ArrayProfile.helperOf options c.types q = some (e.name, .code ops) := by
    intro hold hother
    rcases hallowed _ (hanswers.origin e hold) _ hbody with ⟨hname, -⟩ | hq
    · exact absurd (congrArg FunctionName.signatureName hname) hother
    · exact hq
  rcases patchOffset_eq_ok.mp hpatch with ⟨⟨-, hnone⟩, rfl⟩ | ⟨-, -, rfl⟩
  · have hother := FunctionRegistry.lookup_eq_none_iff.mp hnone e hmem
    rw [hoptions] at hother
    exact .inl ⟨hmem, hother, hhelper hmem hother⟩
  · dsimp only at hmem
    rw [hoptions] at hmem
    rcases FunctionRegistry.mem_markReplacing hanswers.nodup hmem with
      ⟨hold, hother⟩ | ⟨hname, hnew, hknown⟩
    · exact .inl ⟨hold, hother, hhelper hold hother⟩
    · rw [hbody, Option.some.injEq] at hnew
      exact .inr ⟨hname, FunctionBody.code.inj hnew, hknown.imp And.left id⟩

theorem Run.plainCode {options : Options} {w₀ w : ModuleWriter} (hrun : Run (.new options) w₀ c w)
    {strings : StringPool} (hpatch : ({ c with strings } : ModuleCompiler).patchOffset = .ok r)
    {e : FunctionEntry} {ops : List CodeOp} (he : (e, ops) ∈ r.codeFunctions) :
    ∃ instrs, PlainCode c.types ops instrs := by
  have hwf := TypeRegistry.wellFormed_of_grows hrun.grows
  rcases hrun.codeFunction_cases hpatch he with ⟨-, -, q, hq⟩ | ⟨-, rfl, -⟩
  · exact (ArrayProfile.helperOf_code hwf hq).2
  · exact ⟨_, plainCode_constant c.types _⟩

/-- Every code function has known types exactly if the function that gives the offset of the string
table was never asked for with others. -/
theorem Run.hasKnownTypes_iff {options : Options} {w₀ w : ModuleWriter}
    (hrun : Run (.new options) w₀ c w) {strings : StringPool}
    (hpatch : ({ c with strings } : ModuleCompiler).patchOffset = .ok r) :
    (∀ f ∈ r.codeFunctions, f.1.name.HasKnownTypes c.types) ↔
      ∀ e ∈ c.functions.entries,
        e.name.signatureName = (StringPool.offsetFunction options).signatureName →
        e.name.HasKnownTypes c.types := by
  have hwf := TypeRegistry.wellFormed_of_grows hrun.grows
  have hoptions : c.options = options := hrun.keeps.options
  constructor
  · intro hall e he hname
    obtain ⟨needs, hneeds, -⟩ := hrun.answers
    have hanswers := FunctionRegistry.answers_needAll needs
    rw [← hneeds] at hanswers
    rcases patchOffset_eq_ok.mp hpatch with ⟨⟨-, hnone⟩, -⟩ | ⟨-, -, rfl⟩
    · dsimp only at hnone
      rw [hoptions] at hnone
      exact absurd hname (FunctionRegistry.lookup_eq_none_iff.mp hnone e he)
    · have hname' : e.name.signatureName = (StringPool.offsetFunction c.options).signatureName := by
        rw [hoptions, hname]
      obtain ⟨e', he', hsame, hbody⟩ := FunctionRegistry.exists_mem_markReplacing
        (StringPool.constantBody (Int32.ofNat (strings.baseOffset.getD 0))) hanswers.nodup he hname'
      have hknown := hall _ (FunctionRegistry.mem_codeFunctions.mpr ⟨he', hbody⟩)
      rwa [← hsame]
  · rintro hall ⟨e, ops⟩ he
    rcases hrun.codeFunction_cases hpatch he with ⟨-, -, q, hq⟩ | ⟨hname, -, hown | ⟨e₀, he₀, hsame⟩⟩
    · exact (ArrayProfile.helperOf_code hwf hq).1
    · show e.name.HasKnownTypes c.types
      rw [hown]
      exact ⟨by simp [StringPool.offsetFunction], by rintro ty ⟨⟩; trivial⟩
    · show e.name.HasKnownTypes c.types
      rw [← hsame] at hname ⊢
      exact hall e₀ he₀ hname

/-! ### Writing code functions -/

/-- The draft of a function whose body is target code. -/
def codeDraft (c : ModuleCompiler) (f : FunctionEntry × List CodeOp) :
    Except CompileError FunctionDraft :=
  (c.draft f.1.id f.1.name []).map fun d => { d with body := f.2.map .op }

theorem codeDraft_eq_ok {f : FunctionEntry × List CodeOp} {d : FunctionDraft}
    (h : c.codeDraft f = .ok d) :
    ∃ params result, c.types.lowerAll f.1.name.params = .ok params ∧
      c.types.lowerResult f.1.name.result = .ok result ∧
      d = { id := f.1.id, name := f.1.name.fullName, params, result, locals := []
            body := f.2.map .op } := by
  obtain ⟨d', hd', rfl⟩ := map_eq_ok.mp h
  simp only [draft, bind_eq_ok, pure_eq_ok] at hd'
  obtain ⟨params, hparams, result, hresult, locals, hlocals, rfl⟩ := hd'
  cases hlocals
  exact ⟨params, result, hparams, hresult, rfl⟩

theorem exists_codeDraft_iff {f : FunctionEntry × List CodeOp} :
    (∃ d, c.codeDraft f = .ok d) ↔ f.1.name.HasKnownTypes c.types := by
  constructor
  · rintro ⟨d, hd⟩
    obtain ⟨params, result, hparams, hresult, -⟩ := codeDraft_eq_ok hd
    exact ⟨TypeRegistry.knows_of_lowerAll hparams, TypeRegistry.knows_of_lowerResult hresult⟩
  · rintro ⟨hparams, hresult⟩
    obtain ⟨ws, hws⟩ := TypeRegistry.lowerAll_of_knows hparams
    obtain ⟨w, hw⟩ := TypeRegistry.lowerResult_of_knows hresult
    have hdraft : c.draft f.1.id f.1.name [] =
        .ok { id := f.1.id, name := f.1.name.fullName, params := ws, result := w, locals := [] } := by
      simp only [draft, bind_eq_ok, pure_eq_ok]
      exact ⟨ws, hws, w, hw, [], rfl, rfl⟩
    exact ⟨_, map_eq_ok.mpr ⟨_, hdraft, rfl⟩⟩

theorem writeFunction_binary {m : BinaryModule} (hcurrent : m.current = none) (f : FunctionDraft) :
    ModuleWriter.writeFunction (.binary m) f =
      (.ok (), .binary { m with buffered := m.buffered ++ [f] }) := by
  simp [ModuleWriter.writeFunction, ModuleWriter.beginFunction, BinaryModule.beginFunction, hcurrent,
    Except.map, ModuleWriter.endFunction, BinaryModule.endFunction]

/-- Code functions are written exactly if all of them have a draft. -/
theorem writeCodeFunctions_eq_ok_iff {m : BinaryModule} (hcurrent : m.current = none)
    {functions : List (FunctionEntry × List CodeOp)} {w : ModuleWriter} :
    c.writeCodeFunctions (.binary m) functions = (.ok (), w) ↔
      ∃ drafts, List.Forall₂ (fun f d => c.codeDraft f = .ok d) functions drafts ∧
        w = .binary { m with buffered := m.buffered ++ drafts } := by
  induction functions generalizing m with
  | nil =>
    simp only [writeCodeFunctions, List.forall₂_nil_left_iff, exists_eq_left, List.append_nil,
      Prod.mk.injEq, true_and]
    exact eq_comm
  | cons f rest ih =>
    obtain ⟨e, ops⟩ := f
    rcases hdraft : c.draft e.id e.name [] with error | d
    · simp only [writeCodeFunctions, hdraft, List.forall₂_cons_left_iff, codeDraft, Except.map]
      simp
    · simp only [writeCodeFunctions, hdraft, List.forall₂_cons_left_iff, codeDraft, Except.map,
        writeFunction_binary hcurrent]
      rw [ih (m := { m with buffered := m.buffered ++ [{ d with body := ops.map .op }] }) hcurrent]
      constructor
      · rintro ⟨drafts, hdrafts, rfl⟩
        exact ⟨_, ⟨_, drafts, rfl, hdrafts, rfl⟩, by simp⟩
      · rintro ⟨_, ⟨_, drafts, hd, hdrafts, rfl⟩, rfl⟩
        cases hd
        exact ⟨drafts, hdrafts, by simp⟩

theorem resolved_targets (base : Nat) (scratch : List (Nat × WasmType)) (instrs : List TargetOp) :
    (instrs.map fun instr => Emission.op (.target instr)).mapM
      (Emission.resolved? base scratch r) = some instrs := by
  induction instrs with
  | nil => rfl
  | cons instr rest ih =>
    rw [List.map_cons, List.mapM_cons, ih]
    rfl

theorem scratchLocals_targets (instrs : List TargetOp) :
    scratchLocals (instrs.map fun instr => Emission.op (.target instr)) = [] := by
  have hnone : (instrs.map fun instr => Emission.op (.target instr)).filterMap Emission.scratch? =
      [] := by
    simp [List.filterMap_map, Function.comp_def, Emission.scratch?]
  rw [scratchLocals, hnone]
  rfl

theorem encode_codeDraft {f : FunctionEntry × List CodeOp} {instrs : List TargetOp}
    (hcode : f.2 = instrs.map .target) {d : FunctionDraft} (hdraft : c.codeDraft f = .ok d)
    {e : EncodedFunction} (hencode : d.encode (.ofRegistry r) = .ok e) :
    e.id = f.1.id ∧ e.name = f.1.name.fullName ∧ c.types.lowerAll f.1.name.params = .ok e.params ∧
      c.types.lowerResult f.1.name.result = .ok e.result ∧ e.bytes = functionBytes [] instrs := by
  obtain ⟨params, result, hparams, hresult, rfl⟩ := codeDraft_eq_ok hdraft
  obtain ⟨ops, hfinishes⟩ := FunctionDraft.encode_eq_ok hencode
  have hbody : f.2.map Emission.op = instrs.map fun instr => Emission.op (.target instr) := by
    rw [hcode, List.map_map]
    rfl
  have hops : ops = instrs := by
    have hresolved := hfinishes.code
    rw [hbody, resolved_targets] at hresolved
    exact (Option.some.inj hresolved).symm
  have hbytes := hfinishes.bytes
  rw [hbody, localTypes, scratchLocals_targets, hops] at hbytes
  exact ⟨hfinishes.id, hfinishes.name, by rw [hfinishes.params]; exact hparams,
    by rw [hfinishes.result]; exact hresult, hbytes⟩

/-- **What finishing a module does** if its code functions have drafts, and no function has two. -/
theorem finish_of_codeDrafts {m : BinaryModule} {data : DataSection} {strings : StringPool}
    (hfinalize : c.strings.finalize m.data = (.ok data, strings))
    (hpatch : ({ c with strings } : ModuleCompiler).patchOffset = .ok r)
    (hcurrent : m.current = none) (hfunctions : m.functions = []) {drafts : List FunctionDraft}
    (hdrafts : List.Forall₂ (fun f d => c.codeDraft f = .ok d) r.codeFunctions drafts)
    {encoded : List EncodedFunction}
    (hencoded : BinaryModule.Encodes (.ofRegistry r) (m.buffered ++ drafts) encoded)
    (hids : ((m.buffered ++ drafts).map FunctionDraft.id).Nodup) :
    c.finish (.binary m) =
      { result := .ok ()
        compiler := { c with strings, functions := r }
        writer := .binary { m with
          data, buffered := [], functions := BinaryModule.inOrder encoded
          importCount := r.importCount } } := by
  have hwritten : ({ c with strings, functions := r } : ModuleCompiler).writeCodeFunctions
      (.binary { m with data }) r.codeFunctions =
        (.ok (), .binary { m with data, buffered := m.buffered ++ drafts }) :=
    (writeCodeFunctions_eq_ok_iff (m := { m with data }) hcurrent).mpr ⟨drafts, hdrafts, rfl⟩
  have hindices : ((m.functions ++ encoded).map EncodedFunction.index).Nodup := by
    rw [hfunctions, List.nil_append]
    exact nodup_index_of_encodes hencoded hids
  have hfinish := BinaryModule.finish_of_encodes
    (m := { m with data, buffered := m.buffered ++ drafts }) hcurrent hencoded hindices
  dsimp only at hfinish
  rw [hfunctions, List.nil_append] at hfinish
  simp only [ModuleCompiler.finish, ModuleWriter.data, hfinalize, ModuleWriter.withData, hpatch,
    hwritten, ModuleWriter.finish]
  rw [hfunctions, hfinish]

theorem functions_finish {w : ModuleWriter} {data : DataSection}
    (hfinalize : (c.strings.finalize w.data).1 = .ok data)
    (hpatch : ({ c with strings := (c.strings.finalize w.data).2 } : ModuleCompiler).patchOffset =
      .ok r) : (c.finish w).compiler.functions = r := by
  unfold ModuleCompiler.finish
  simp only [hfinalize, hpatch]
  split <;> rfl

/-- The module has only functions of the registry, each of them once, and its strings can be
written. -/
structure Ready (c : ModuleCompiler) (m : BinaryModule) (data : DataSection) (strings : StringPool)
    (r : FunctionRegistry) : Prop where
  finalize : c.strings.finalize m.data = (.ok data, strings)
  patchOffset : ({ c with strings } : ModuleCompiler).patchOffset = .ok r
  current : m.current = none
  functions : m.functions = []
  sound : r.Sound
  buffered : ∀ f ∈ m.buffered, f.CallsBelow r.count
  ids : (m.buffered.map FunctionDraft.id ++ r.codeFunctions.map fun f => f.1.id).Nodup

section Ready

variable {m : BinaryModule} {data : DataSection} {strings : StringPool}

theorem map_id_of_codeDrafts {functions : List (FunctionEntry × List CodeOp)}
    {drafts : List FunctionDraft}
    (h : List.Forall₂ (fun f d => c.codeDraft f = .ok d) functions drafts) :
    drafts.map FunctionDraft.id = functions.map fun f => f.1.id := by
  refine (map_eq_map_of_forall₂ h fun f d hdraft => ?_).symm
  obtain ⟨params, result, -, -, rfl⟩ := codeDraft_eq_ok hdraft
  rfl

theorem Ready.callsBelow (h : Ready c m data strings r) {drafts : List FunctionDraft}
    (hdrafts : List.Forall₂ (fun f d => c.codeDraft f = .ok d) r.codeFunctions drafts) :
    ∀ f ∈ m.buffered ++ drafts, f.CallsBelow r.count := by
  intro f hf
  rcases List.mem_append.mp hf with hold | hnew
  · exact h.buffered f hold
  · obtain ⟨⟨e, ops⟩, he, hdraft⟩ := exists_left_of_mem hdrafts hnew
    obtain ⟨params, result, -, -, rfl⟩ := codeDraft_eq_ok hdraft
    obtain ⟨hid, hops⟩ := h.sound.codeFunctions he
    refine ⟨hid, fun e' he' => ?_⟩
    obtain ⟨op, hop, rfl⟩ := List.mem_map.mp he'
    exact hops op hop

theorem Ready.exists_encoded (h : Ready c m data strings r) {drafts : List FunctionDraft}
    (hdrafts : List.Forall₂ (fun f d => c.codeDraft f = .ok d) r.codeFunctions drafts) :
    ∃ encoded, BinaryModule.Encodes (.ofRegistry r) (m.buffered ++ drafts) encoded ∧
      c.finish (.binary m) =
        { result := .ok ()
          compiler := { c with strings, functions := r }
          writer := .binary { m with
            data, buffered := [], functions := BinaryModule.inOrder encoded
            importCount := r.importCount } } := by
  have hcalls := h.callsBelow hdrafts
  obtain ⟨encoded, hencoded⟩ := exists_forall₂ fun f hf => (hcalls f hf).encode
  refine ⟨encoded, hencoded, ?_⟩
  refine finish_of_codeDrafts h.finalize h.patchOffset h.current h.functions hdrafts hencoded ?_
  rw [List.map_append, map_id_of_codeDrafts hdrafts]
  exact h.ids

theorem exists_codeDrafts (hknown : ∀ f ∈ r.codeFunctions, f.1.name.HasKnownTypes c.types) :
    ∃ drafts, List.Forall₂ (fun f d => c.codeDraft f = .ok d) r.codeFunctions drafts :=
  exists_forall₂ fun f hf => exists_codeDraft_iff.mpr (hknown f hf)

theorem Run.ready {options : Options} (hrun : Run (.new options) .newBinary c (.binary m))
    (hcurrent : m.current = none) (hfinalize : c.strings.finalize m.data = (.ok data, strings))
    (hpatch : ({ c with strings } : ModuleCompiler).patchOffset = .ok r)
    (hids : (m.buffered.map FunctionDraft.id ++ r.codeFunctions.map fun f => f.1.id).Nodup) :
    Ready c m data strings r := by
  have hdrafting := drafting_of_run hrun
  have hadvances := advances_patchOffset hpatch
  exact
    { finalize := hfinalize
      patchOffset := hpatch
      current := hcurrent
      functions := hdrafting.writer.functions
      sound := hadvances.sound hdrafting.sound
      buffered := fun f hf => (hdrafting.writer.buffered f hf).mono hadvances.count_le
      ids := hids }

/-- A module that can be finished was ready. -/
theorem Run.exists_ready {options : Options} (hrun : Run (.new options) .newBinary c (.binary m))
    (hcurrent : m.current = none) (h : (c.finish (.binary m)).result = .ok ()) :
    ∃ data strings r, Ready c m data strings r := by
  rcases hfinish : c.finish (.binary m) with ⟨result, c', w'⟩
  rw [hfinish] at h
  obtain rfl : result = .ok () := h
  obtain ⟨stages, -, -⟩ := finish_eq_ok hfinish
  obtain ⟨drafts, hdrafts, hwritten⟩ :=
    (writeCodeFunctions_eq_ok_iff (m := { m with data := stages.data }) hcurrent).mp
      stages.writeCodeFunctions
  have hfinished := stages.finish
  rw [hwritten] at hfinished
  rcases hlast : BinaryModule.finish { m with data := stages.data, buffered := m.buffered ++ drafts }
    stages.functions with ⟨result, m'⟩
  simp only [ModuleWriter.finish, hlast] at hfinished
  obtain rfl := (Prod.mk.inj hfinished).1
  obtain ⟨-, encoded, hencoded, hrepeated, -⟩ := BinaryModule.finish_eq_ok hlast
  have hfunctions : m.functions = [] := (drafting_of_run hrun).writer.functions
  dsimp only at hrepeated
  rw [hfunctions, List.nil_append] at hrepeated
  have hids := nodup_id_of_encodes hencoded (BinaryModule.nodup_of_repeated? hrepeated)
  rw [List.map_append, map_id_of_codeDrafts hdrafts] at hids
  exact ⟨_, _, _, hrun.ready hcurrent stages.finalize stages.patchOffset hids⟩

/-- No complete function of a module that is ready is the one that gives the offset of the string
table: that one gets its body last. -/
theorem Ready.key_ne_offset (h : Ready c m data strings r) {f : FunctionDraft} (hf : f ∈ m.buffered)
    {name : FunctionName} (hlookup : c.functions.lookup name = some f.id) :
    name.signatureName ≠ (StringPool.offsetFunction c.options).signatureName := by
  intro hkey
  have hoffset : c.functions.lookup (StringPool.offsetFunction c.options) = some f.id := by
    rw [FunctionRegistry.lookup, ← hkey]
    exact hlookup
  have hr : r = (c.functions.markReplacing (StringPool.offsetFunction c.options)
      (StringPool.constantBody (Int32.ofNat (strings.baseOffset.getD 0)))).2 := by
    rcases patchOffset_eq_ok.mp h.patchOffset with ⟨⟨-, hnone⟩, -⟩ | ⟨-, -, hr⟩
    · cases hnone.symm.trans hoffset
    · exact hr
  obtain ⟨e, he, hbody⟩ := c.functions.get?_markReplacing (StringPool.offsetFunction c.options)
    (StringPool.constantBody (Int32.ofNat (strings.baseOffset.getD 0)))
  have hplace : (c.functions.markReplacing (StringPool.offsetFunction c.options)
      (StringPool.constantBody (Int32.ofNat (strings.baseOffset.getD 0)))).1 = f.id := by
    rw [FunctionRegistry.markReplacing, hoffset]
  rw [← hr, hplace] at he
  have hcode := FunctionRegistry.mem_codeFunctions.mpr ⟨List.mem_of_getElem? he, hbody⟩
  have hid : e.id = f.id := h.sound.id_eq he
  exact (List.nodup_append'.mp h.ids).2.2 (List.mem_map_of_mem hf)
    (List.mem_map.mpr ⟨_, hcode, hid⟩)

theorem Ready.finish_ok_iff (h : Ready c m data strings r) :
    (c.finish (.binary m)).result = .ok () ↔
      ∀ f ∈ r.codeFunctions, f.1.name.HasKnownTypes c.types := by
  constructor
  · intro hok f hf
    rcases hwritten : ({ c with strings, functions := r } : ModuleCompiler).writeCodeFunctions
      (.binary { m with data }) r.codeFunctions with ⟨e | ⟨⟩, w⟩
    · simp only [ModuleCompiler.finish, ModuleWriter.data, h.finalize, ModuleWriter.withData,
        h.patchOffset, hwritten] at hok
      cases hok
    · obtain ⟨drafts, hdrafts, -⟩ :=
        (writeCodeFunctions_eq_ok_iff (m := { m with data }) h.current).mp hwritten
      obtain ⟨d, -, hd⟩ := exists_right_of_mem hdrafts hf
      exact exists_codeDraft_iff.mp ⟨d, hd⟩
  · intro hknown
    obtain ⟨drafts, hdrafts⟩ := exists_codeDrafts hknown
    obtain ⟨encoded, -, hfinish⟩ := h.exists_encoded hdrafts
    rw [hfinish]

end Ready

end ModuleCompiler

end WasmBackend
