import WasmBackend.Proofs.CodeFunctions

/-! # Needs in any order

The registry of a module holds every function as it was needed first. So two orders of the same needs
can give a function different bodies, if it is needed in more than one way. Needs that agree
(`Agree`) give the same functions with a body of target code in every order, up to the numbers of
functions (`perm_codeData`).

Array helpers agree with each other if array classes have different names
(`helper_eq_of_signatureName`), and none of them is the function that gives the offset of the string
table (`signatureName_ne_offset`). -/

namespace WasmBackend

/-! ### Texts of helpers -/

namespace TypeRegistry

/-- The name of an array class does not end like the descriptor of a method with an integer result. -/
theorem Named.not_suffix_name {t : TypeRegistry} (h : t.Named) {a : ArrayClass} (ha : a ∈ t.arrays) :
    ¬ [')', 'I'] <:+ a.name.toList := by
  -- by induction on the length of the name, as an array of arrays has the longer one
  induction hlength : a.name.toList.length using Nat.strong_induction_on generalizing a with
  | _ n ih =>
  obtain ⟨d, hd, hname⟩ := h.arrays a ha
  have hlist : a.name.toList = '[' :: d.toList := by simp [hname]
  rw [hlist] at hlength ⊢
  intro hsuffix
  rcases List.suffix_cons_iff.mp hsuffix with heq | hrest
  · cases heq
  · generalize a.element = ty at hd
    cases ty with
    | value ty =>
      cases hd
      revert hrest
      cases ty <;> decide +kernel
    | struct id =>
      obtain ⟨s, -, rfl⟩ := descriptor_struct_eq_ok.mp hd
      have hlast := hrest.getLast (by simp)
      simp at hlast
    | array id =>
      obtain ⟨a', ha', rfl⟩ := map_eq_ok.mp hd
      have hmem := List.mem_of_getElem? (arrayClass_eq_ok.mp ha')
      rw [List.length_cons] at hlength
      exact ih _ (by omega) hmem rfl hrest

end TypeRegistry

namespace ArrayProfile

open Typing (allocates)
open ArrayProgram (hostParams hostResult)

variable {options : Options} {types : TypeRegistry}

theorem parenthesis_notMem_valueDescriptor (ty : ValueType) :
    '(' ∉ (TypeRegistry.valueDescriptor ty).toList := by
  cases ty <;> simp [TypeRegistry.valueDescriptor]

theorem methodDescriptor_access {op : ArrayOp} (hop : allocates op = false) (ty : ValueType)
    {signature : String}
    (h : types.methodDescriptor (hostParams ty op) (hostResult ty 0 op) = .ok signature) :
    ∃ rest, signature.toList = '(' :: 'L' :: rest ∧ '(' ∉ rest := by
  have hvalue := parenthesis_notMem_valueDescriptor (OperandType.hostType (.value ty))
  have hinteger := parenthesis_notMem_valueDescriptor .i32
  have hobject : TypeRegistry.valueDescriptor .externRef = "Ljava/lang/Object;" := rfl
  cases op with
  | new | newWithDescriptor => cases hop
  | _ =>
    cases h
    refine ⟨_, by simp [String.join, hobject]; rfl, ?_⟩
    simp [hinteger, hvalue]

/-- **No helper is taken for the function that gives the offset of the string table.** -/
theorem signatureName_ne_offset (hwf : types.WellFormed) (hnamed : types.Named) {q : ArrayOp × Nat}
    {name : FunctionName} {body : FunctionBody} (h : helperOf options types q = some (name, body)) :
    name.signatureName ≠ (StringPool.offsetFunction options).signatureName := by
  obtain ⟨a, ha, hhelper⟩ := helperOf_eq_some.mp h
  obtain ⟨-, hplace⟩ := id_of_arrayClass hwf ha
  intro hkey
  have hoffset : ['(', ')', 'I'] <:+ name.signatureName.toList := by
    have hsignature : (StringPool.offsetFunction options).signature.toList = ['(', ')', 'I'] := by
      simp [StringPool.offsetFunction]
    rw [hkey, FunctionName.signatureName, String.toList_append, hsignature]
    exact List.suffix_append _ _
  by_cases hop : allocates q.1 = true
  · obtain ⟨-, element, -, hsignature⟩ :=
      allocator_signatureName (TypeRegistry.arrayClass_eq_ok.mpr hplace) hop hhelper
    have hclass : a.name.toList <:+ name.signatureName.toList := by
      rw [hsignature, ← String.append_assoc, String.toList_append]
      exact List.suffix_append _ _
    have hmem := List.mem_of_getElem? hplace
    have hend : [')', 'I'] <:+ name.signatureName.toList := (List.suffix_cons _ _).trans hoffset
    rcases List.suffix_or_suffix_of_suffix hend hclass with hshort | hlong
    · exact hnamed.not_suffix_name hmem hshort
    · obtain ⟨d, -, hname⟩ := hnamed.arrays a hmem
      have hbracket : '[' ∈ [')', 'I'] := hlong.subset (by simp [hname])
      revert hbracket
      decide
  · rw [Bool.not_eq_true] at hop
    obtain ⟨-, hname, -⟩ := hostHelper_access hop hhelper
    obtain ⟨signature, hsignature, hsigned⟩ := map_eq_ok.mp hname
    obtain ⟨rest, hrest, hparenthesis⟩ := methodDescriptor_access hop _ hsignature
    have haccess : '(' :: 'L' :: rest <:+ name.signatureName.toList := by
      rw [← hsigned, FunctionName.signatureName, String.toList_append, hrest]
      exact List.suffix_append _ _
    rcases List.suffix_or_suffix_of_suffix hoffset haccess with hshort | hlong
    · rcases List.suffix_cons_iff.mp hshort with heq | hinner
      · cases heq
      · have hmem : '(' ∈ 'L' :: rest := hinner.subset List.mem_cons_self
        rcases List.mem_cons.mp hmem with heq | hmem
        · cases heq
        · exact hparenthesis hmem
    · have hmem : 'L' ∈ ['(', ')', 'I'] := hlong.subset (by simp)
      revert hmem
      decide

/-- **Helpers with the same text are the same**, if array classes have different names. -/
theorem helper_eq_of_signatureName (hwf : types.WellFormed) (hnamed : types.Named)
    (hnames : (types.arrays.map ArrayClass.name).Nodup) {q q' : ArrayOp × Nat}
    {name name' : FunctionName} {body body' : FunctionBody}
    (h : helperOf options types q = some (name, body))
    (h' : helperOf options types q' = some (name', body'))
    (hkey : name'.signatureName = name.signatureName) : name' = name ∧ body' = body := by
  obtain ⟨a, ha, hhelper⟩ := helperOf_eq_some.mp h
  obtain ⟨a', ha', hhelper'⟩ := helperOf_eq_some.mp h'
  obtain ⟨-, hplace⟩ := id_of_arrayClass hwf ha
  obtain ⟨-, hplace'⟩ := id_of_arrayClass hwf ha'
  by_cases hop : allocates q.1 = true
  · obtain ⟨hsame, hshares⟩ :=
      allocator_of_signatureName hplace hplace' hnamed hop hhelper hhelper' hkey
    have hclass : a' = a := by
      rcases (sharesAllocator_iff hplace' hplace).mp hshares with heq | ⟨-, hname⟩
      · exact heq
      · exact List.inj_on_of_nodup_map hnames (List.mem_of_getElem? hplace')
          (List.mem_of_getElem? hplace) hname
    rw [hclass, hsame, hhelper] at hhelper'
    cases hhelper'
    exact ⟨rfl, rfl⟩
  · rw [Bool.not_eq_true] at hop
    have hop' : allocates q'.1 = false := by
      by_contra hother
      rw [Bool.not_eq_false] at hother
      have hclass' := TypeRegistry.arrayClass_eq_ok.mpr hplace'
      have hallocates := allocates_eq_of_signatureName hclass' hother hhelper' hhelper hkey.symm
      rw [hop] at hallocates
      cases hallocates
    exact access_eq_of_signatureName hop hop' hhelper hhelper' hkey

theorem useGc_of_helperOf_code {q : ArrayOp × Nat} {name : FunctionName} {ops : List CodeOp}
    (h : helperOf options types q = some (name, .code ops)) : options.useGc = true := by
  obtain ⟨a, -, hhelper⟩ := helperOf_eq_some.mp h
  unfold helper? at hhelper
  split_ifs at hhelper with hgc
  · exact hgc
  · obtain ⟨helper, hhost, hsome⟩ := map_eq_ok.mp hhelper
    cases hsome
    obtain ⟨script, hscript⟩ := hostHelper_body hhost
    cases hscript

end ArrayProfile

/-! ### Agreeing needs -/

/-- What is known of a function without its body, whatever its number. -/
structure Declaration where
  /-- The text by which the registry knows the function. -/
  key : String
  name : String
  params : List OperandType
  result : Option OperandType
  deriving DecidableEq

/-- The declaration of a function with a name. -/
def FunctionName.declaration (n : FunctionName) : Declaration where
  key := n.signatureName
  name := n.fullName
  params := n.params
  result := n.result

/-- Needs of one function do not contradict each other. If a function is needed with a body of target
code, it is always needed with that body and the same declaration. The function that gives the offset
of the string table gets its body later, so its needs have to agree on the declaration only. -/
structure Agree (options : Options) (needs : List Need) : Prop where
  code : ∀ n ∈ needs, ∀ n' ∈ needs, n'.name.signatureName = n.name.signatureName →
    n.name.signatureName ≠ (StringPool.offsetFunction options).signatureName →
    ∀ ops, n.body = some (.code ops) →
      n'.body = some (.code ops) ∧ n'.name.declaration = n.name.declaration
  offset : ∀ n ∈ needs,
    n.name.signatureName = (StringPool.offsetFunction options).signatureName →
    n.name.declaration = (StringPool.offsetFunction options).declaration

theorem Agree.of_perm {options : Options} {needs needs' : List Need} (h : Agree options needs)
    (hperm : needs.Perm needs') : Agree options needs' := by
  refine ⟨fun n hn n' hn' => ?_, fun n hn => ?_⟩
  · exact h.code n (hperm.mem_iff.mpr hn) n' (hperm.mem_iff.mpr hn')
  · exact h.offset n (hperm.mem_iff.mpr hn)

namespace FunctionRegistry

/-- The functions with a body of target code, with their declarations. -/
def codeData (r : FunctionRegistry) : List (Declaration × List CodeOp) :=
  r.codeFunctions.map fun f => (f.1.name.declaration, f.2)

theorem mem_codeData {r : FunctionRegistry} {d : Declaration} {ops : List CodeOp} :
    (d, ops) ∈ r.codeData ↔
      ∃ e ∈ r.entries, e.name.declaration = d ∧ e.body = some (.code ops) := by
  unfold codeData
  rw [List.mem_map]
  constructor
  · rintro ⟨⟨e, ops'⟩, he, hdata⟩
    cases hdata
    obtain ⟨hmem, hbody⟩ := mem_codeFunctions.mp he
    exact ⟨e, hmem, rfl, hbody⟩
  · rintro ⟨e, hmem, rfl, hbody⟩
    exact ⟨(e, ops), mem_codeFunctions.mpr ⟨hmem, hbody⟩, rfl⟩

theorem nodup_codeData {r : FunctionRegistry}
    (h : (r.entries.map fun e => e.name.signatureName).Nodup) : r.codeData.Nodup := by
  have hsub := r.sublist_codeFunctions.map fun e => e.name.signatureName
  have hkeys : (r.codeFunctions.map Prod.fst).map (fun e => e.name.signatureName) =
      r.codeData.map fun f => f.1.key := by
    rw [codeData, List.map_map, List.map_map]
    rfl
  rw [hkeys] at hsub
  exact (hsub.nodup h).of_map _

theorem nodup_markReplacing {r : FunctionRegistry} (name : FunctionName) (body : FunctionBody)
    (h : (r.entries.map fun e => e.name.signatureName).Nodup) :
    ((r.markReplacing name body).2.entries.map fun e => e.name.signatureName).Nodup := by
  unfold FunctionRegistry.markReplacing
  split
  · next id _ =>
    have hnames := map_name_modify r.entries id
      (f := fun e => { e with isImport := body.isImport, body := some body }) fun _ => rfl
    have hkeys := congrArg (List.map FunctionName.signatureName) hnames
    rw [List.map_map, List.map_map] at hkeys
    exact hkeys ▸ h
  · next hnone =>
    simp only [FunctionRegistry.add, List.map_append, List.map_cons, List.map_nil]
    refine List.nodup_append_comm.mp (List.nodup_cons.mpr ⟨fun hmem => ?_, h⟩)
    obtain ⟨e, he, hname⟩ := List.mem_map.mp hmem
    exact lookup_eq_none_iff.mp hnone e he hname

variable {options : Options} {needs : List Need} {r : FunctionRegistry}

/-- Which functions have a body of target code does not depend on the order of needs. -/
theorem Answers.exists_code_iff (h : Answers needs r) (hagree : Agree options needs) {d : Declaration}
    (hd : d.key ≠ (StringPool.offsetFunction options).signatureName) {ops : List CodeOp} :
    (∃ e ∈ r.entries, e.name.declaration = d ∧ e.body = some (.code ops)) ↔
      ∃ n ∈ needs, n.name.declaration = d ∧ n.body = some (.code ops) := by
  constructor
  · rintro ⟨e, he, hname, hbody⟩
    exact ⟨_, h.origin e he, hname, hbody⟩
  · rintro ⟨n, hn, rfl, hbody⟩
    obtain ⟨e, he, hkey⟩ := h.known n hn
    obtain ⟨hsame, hname⟩ :=
      hagree.code n hn ⟨e.name, e.body⟩ (h.origin e he) hkey hd ops hbody
    exact ⟨e, he, hname, hsame⟩

theorem Answers.lookup_eq_none_iff (h : Answers needs r) {name : FunctionName} :
    r.lookup name = none ↔ ∀ n ∈ needs, n.name.signatureName ≠ name.signatureName := by
  rw [FunctionRegistry.lookup_eq_none_iff]
  constructor
  · intro hall n hn
    obtain ⟨e, he, hkey⟩ := h.known n hn
    intro hsame
    exact hall e he (hkey.trans hsame)
  · intro hall e he
    exact hall ⟨e.name, e.body⟩ (h.origin e he)

end FunctionRegistry

/-! ### The registry of a finished module -/

namespace ModuleCompiler

variable {c : ModuleCompiler} {needs : List Need} {r : FunctionRegistry}

theorem noOffset_iff (h : FunctionRegistry.Answers needs c.functions) :
    c.NoOffset ↔ c.strings.strings = [] ∧
      ∀ n ∈ needs, n.name.signatureName ≠ (StringPool.offsetFunction c.options).signatureName :=
  and_congr_right fun _ => h.lookup_eq_none_iff

theorem nodup_patchOffset (h : FunctionRegistry.Answers needs c.functions)
    (hpatch : c.patchOffset = .ok r) : (r.entries.map fun e => e.name.signatureName).Nodup := by
  rcases patchOffset_eq_ok.mp hpatch with ⟨-, rfl⟩ | ⟨-, -, rfl⟩
  · exact h.nodup
  · exact FunctionRegistry.nodup_markReplacing _ _ h.nodup

section Agree

variable (h : FunctionRegistry.Answers needs c.functions) (hagree : Agree c.options needs)
include h hagree

theorem declaration_of_markReplacing {body : FunctionBody} {e : FunctionEntry}
    (he : e ∈ (c.functions.markReplacing (StringPool.offsetFunction c.options) body).2.entries)
    (hkey : e.name.signatureName = (StringPool.offsetFunction c.options).signatureName) :
    e.name.declaration = (StringPool.offsetFunction c.options).declaration ∧ e.body = some body := by
  rcases FunctionRegistry.mem_markReplacing h.nodup he with
    ⟨-, hother⟩ | ⟨-, hbody, ⟨hname, -⟩ | ⟨e₀, he₀, hname⟩⟩
  · exact absurd hkey hother
  · exact ⟨congrArg FunctionName.declaration hname, hbody⟩
  · rw [← hname] at hkey ⊢
    exact ⟨hagree.offset ⟨e₀.name, e₀.body⟩ (h.origin e₀ he₀) hkey, hbody⟩

/-- **Which functions have a body of target code when the module is finished**, said by what was
needed. -/
theorem mem_codeData_patchOffset (hpatch : c.patchOffset = .ok r) {d : Declaration}
    {ops : List CodeOp} :
    (d, ops) ∈ r.codeData ↔
      if d.key = (StringPool.offsetFunction c.options).signatureName then
        ¬ c.NoOffset ∧ d = (StringPool.offsetFunction c.options).declaration ∧
          .code ops = StringPool.constantBody (Int32.ofNat (c.strings.baseOffset.getD 0))
      else ∃ n ∈ needs, n.name.declaration = d ∧ n.body = some (.code ops) := by
  rw [FunctionRegistry.mem_codeData]
  rcases patchOffset_eq_ok.mp hpatch with ⟨hno, rfl⟩ | ⟨hno, -, rfl⟩
  · split_ifs with hkey
    · refine iff_of_false ?_ fun hused => hused.1 hno
      rintro ⟨e, he, rfl, -⟩
      exact FunctionRegistry.lookup_eq_none_iff.mp hno.2 e he hkey
    · exact h.exists_code_iff hagree hkey
  · split_ifs with hkey
    · constructor
      · rintro ⟨e, he, rfl, hbody⟩
        obtain ⟨hdeclaration, hnew⟩ := declaration_of_markReplacing h hagree he hkey
        exact ⟨hno, hdeclaration, Option.some.inj (hbody.symm.trans hnew)⟩
      · rintro ⟨-, rfl, hops⟩
        obtain ⟨e, he, hname⟩ := FunctionRegistry.signatureName_of_lookup
          (c.functions.lookup_markReplacing (StringPool.offsetFunction c.options)
            (StringPool.constantBody (Int32.ofNat (c.strings.baseOffset.getD 0))))
        have hmem := List.mem_of_getElem? he
        obtain ⟨hdeclaration, hbody⟩ := declaration_of_markReplacing h hagree hmem hname
        exact ⟨e, hmem, hdeclaration, by rw [hbody, hops]⟩
    · rw [← h.exists_code_iff hagree hkey]
      constructor
      · rintro ⟨e, he, rfl, hbody⟩
        rcases FunctionRegistry.mem_markReplacing h.nodup he with ⟨hold, -⟩ | ⟨hsame, -, -⟩
        · exact ⟨e, hold, rfl, hbody⟩
        · exact absurd hsame hkey
      · rintro ⟨e, he, rfl, hbody⟩
        exact ⟨e, FunctionRegistry.mem_markReplacing_of_ne _ he hkey, rfl, hbody⟩

end Agree

/-- **Agreeing needs give the same functions in every order.** -/
theorem perm_codeData {functions functions' : FunctionRegistry} {needs' : List Need}
    (hperm : needs.Perm needs') (hagree : Agree c.options needs)
    (h : FunctionRegistry.Answers needs functions) (h' : FunctionRegistry.Answers needs' functions')
    (hpatch : ({ c with functions } : ModuleCompiler).patchOffset = .ok r) {r' : FunctionRegistry}
    (hpatch' : ({ c with functions := functions' } : ModuleCompiler).patchOffset = .ok r') :
    r.codeData.Perm r'.codeData := by
  refine (List.perm_ext_iff_of_nodup (FunctionRegistry.nodup_codeData (nodup_patchOffset h hpatch))
    (FunctionRegistry.nodup_codeData (nodup_patchOffset h' hpatch'))).mpr ?_
  rintro ⟨d, ops⟩
  rw [mem_codeData_patchOffset (c := { c with functions }) h hagree hpatch,
    mem_codeData_patchOffset (c := { c with functions := functions' }) h' (hagree.of_perm hperm)
      hpatch', noOffset_iff (c := { c with functions }) h,
    noOffset_iff (c := { c with functions := functions' }) h']
  simp only [hperm.mem_iff]

theorem exists_patchOffset_of_perm {functions functions' : FunctionRegistry} {needs' : List Need}
    (hperm : needs.Perm needs') (h : FunctionRegistry.Answers needs functions)
    (h' : FunctionRegistry.Answers needs' functions')
    (hpatch : ({ c with functions } : ModuleCompiler).patchOffset = .ok r) :
    ∃ r', ({ c with functions := functions' } : ModuleCompiler).patchOffset = .ok r' := by
  have hno : ({ c with functions } : ModuleCompiler).NoOffset ↔
      ({ c with functions := functions' } : ModuleCompiler).NoOffset := by
    rw [noOffset_iff (c := { c with functions }) h,
      noOffset_iff (c := { c with functions := functions' }) h']
    simp only [hperm.mem_iff]
  rcases patchOffset_eq_ok.mp hpatch with ⟨hunused, -⟩ | ⟨hused, hlt, -⟩
  · exact ⟨_, patchOffset_eq_ok.mpr (.inl ⟨hno.mp hunused, rfl⟩)⟩
  · exact ⟨_, patchOffset_eq_ok.mpr (.inr ⟨fun hunused => hused (hno.mpr hunused), hlt, rfl⟩)⟩

end ModuleCompiler

end WasmBackend
