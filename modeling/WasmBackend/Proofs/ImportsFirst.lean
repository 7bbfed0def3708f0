import Mathlib.Data.List.Sort
import WasmBackend.Proofs.FunctionRegistry

/-! # The index space of a module

In the finished module the functions have the indices below their number, imports come first, and
imports as well as other functions keep the order in which they were registered (`ImportsFirst`).
These three rules leave no choice: the one pass over the registry, with a counter for each of the two
groups, gives the only such numbering (`importsFirst_iff`).

The *part* of a numbering that belongs to one group is increasing, so it is known once its members
are; a numbering is put together from its two parts by `eq_numberFrom`. -/

namespace WasmBackend.FunctionRegistry

/-- The rules for the indices of the functions of a registry, which are listed by number. -/
structure ImportsFirst (r : FunctionRegistry) (indices : List Nat) : Prop where
  perm : indices.Perm (List.range r.count)
  /-- Exactly the imports have the indices below the number of imports. -/
  imports : ∀ id e index, r.get? id = some e → indices[id]? = some index →
    (index < r.importCount ↔ e.isImport = true)
  /-- Two imports, and two functions that are not imported, keep their order. -/
  increasing : ∀ id id' e e' index index', r.get? id = some e → r.get? id' = some e' →
    e.isImport = e'.isImport → indices[id]? = some index → indices[id']? = some index' →
    id < id' → index < index'

/-! ### The numbering of the registry -/

theorem length_numberFrom (nextImport nextDefined : Nat) (entries : List FunctionEntry) :
    (numberFrom nextImport nextDefined entries).length = entries.length := by
  induction entries generalizing nextImport nextDefined with
  | nil => rfl
  | cons e rest ih =>
    unfold numberFrom
    split_ifs
    · rw [List.length_cons, ih, List.length_cons]
    · rw [List.length_cons, ih, List.length_cons]

theorem perm_moduleIndices (r : FunctionRegistry) :
    r.moduleIndices.Perm (List.range r.count) := by
  have hlength : r.moduleIndices.length = r.count := length_numberFrom ..
  have hnodup : r.moduleIndices.Nodup := by
    rw [List.nodup_iff_getElem?_ne_getElem?]
    intro i j hij hj hsame
    rw [getElem?_moduleIndices, getElem?_moduleIndices] at hsame
    obtain ⟨index, hindex⟩ := indexOf?_of_lt (hlength ▸ hj)
    have hequal := indexOf?_inj (hsame.trans hindex) hindex
    omega
  have hbelow : r.moduleIndices ⊆ List.range r.count := by
    intro index hindex
    obtain ⟨id, hid⟩ := List.getElem?_of_mem hindex
    rw [getElem?_moduleIndices] at hid
    exact List.mem_range.mpr (indexOf?_lt hid)
  refine (List.subperm_of_subset hnodup hbelow).perm_of_length_le ?_
  rw [List.length_range, hlength]

theorem eq_of_moduleIndices {r : FunctionRegistry} {id index : Nat} {e : FunctionEntry}
    (he : r.get? id = some e) (hindex : r.moduleIndices[id]? = some index) :
    index = if e.isImport then (r.entries.take id).countP FunctionEntry.isImport
      else r.importCount + (r.entries.take id).countP (!·.isImport) := by
  rw [getElem?_moduleIndices, indexOf?, show r.entries[id]? = some e from he] at hindex
  exact (Option.some.inj hindex).symm

theorem importsFirst_moduleIndices (r : FunctionRegistry) : ImportsFirst r r.moduleIndices := by
  refine ⟨perm_moduleIndices r, ?_, ?_⟩
  · intro id e index he hindex
    rw [eq_of_moduleIndices he hindex]
    by_cases himport : e.isImport = true
    · have hbefore : (r.entries.take id).countP FunctionEntry.isImport < r.importCount :=
        countP_take_lt he himport
      simp [himport, hbefore]
    · simp [himport]
  · intro id id' e e' index index' he he' hsame hindex hindex' hlt
    rw [eq_of_moduleIndices he hindex, eq_of_moduleIndices he' hindex', ← hsame]
    by_cases himport : e.isImport = true
    · rw [if_pos himport, if_pos himport]
      exact countP_take_lt_take he himport hlt
    · rw [if_neg himport, if_neg himport]
      have hbefore : (r.entries.take id).countP (!·.isImport) <
          (r.entries.take id').countP (!·.isImport) :=
        countP_take_lt_take he (by simpa using himport) hlt
      omega

/-! ### Parts of a numbering -/

/-- The indices of the functions with a property, in registry order. -/
def part (p : FunctionEntry → Bool) (entries : List FunctionEntry) (indices : List Nat) : List Nat :=
  ((entries.zip indices).filter fun numbered => p numbered.1).map Prod.snd

theorem part_cons (p : FunctionEntry → Bool) (e : FunctionEntry) (rest : List FunctionEntry)
    (index : Nat) (others : List Nat) :
    part p (e :: rest) (index :: others) =
      if p e then index :: part p rest others else part p rest others := by
  unfold part
  rw [List.zip_cons_cons, List.filter_cons]
  split_ifs <;> rfl

theorem mem_part {p : FunctionEntry → Bool} {entries : List FunctionEntry} {indices : List Nat}
    {index : Nat} :
    index ∈ part p entries indices ↔
      ∃ (id : Nat) (e : FunctionEntry), entries[id]? = some e ∧ indices[id]? = some index ∧
        p e = true := by
  unfold part
  simp only [List.mem_map, List.mem_filter, Prod.exists, exists_eq_right]
  constructor
  · rintro ⟨e, hmem, hp⟩
    obtain ⟨id, hid⟩ := List.getElem?_of_mem hmem
    rw [List.getElem?_zip_eq_some] at hid
    exact ⟨id, e, hid.1, hid.2, hp⟩
  · rintro ⟨id, e, he, hindex, hp⟩
    exact ⟨e, List.mem_of_getElem? (List.getElem?_zip_eq_some.mpr ⟨he, hindex⟩), hp⟩

/-- **A numbering is known by its two parts.** -/
theorem eq_numberFrom {entries : List FunctionEntry} {indices : List Nat}
    (hlength : indices.length = entries.length) {nextImport nextDefined imports defined : Nat}
    (himports : part FunctionEntry.isImport entries indices = List.range' nextImport imports)
    (hdefined : part (!·.isImport) entries indices = List.range' nextDefined defined) :
    indices = numberFrom nextImport nextDefined entries := by
  induction entries generalizing indices nextImport nextDefined imports defined with
  | nil => exact List.eq_nil_of_length_eq_zero hlength
  | cons e rest ih =>
    obtain ⟨index, others, rfl⟩ := List.exists_cons_of_length_eq_add_one hlength
    have hrest : others.length = rest.length := by simpa using hlength
    rw [part_cons] at himports hdefined
    unfold numberFrom
    -- the group of the first function decides which counter it takes its index from
    by_cases himport : e.isImport = true
    · rw [if_pos himport] at himports ⊢
      rw [if_neg (by simp [himport])] at hdefined
      cases imports with
      | zero => cases himports
      | succ imports =>
        rw [List.range'_succ] at himports
        obtain ⟨rfl, himports⟩ := List.cons.inj himports
        rw [← ih hrest himports hdefined]
    · rw [if_neg himport] at himports ⊢
      rw [if_pos (by simpa using himport)] at hdefined
      cases defined with
      | zero => cases hdefined
      | succ defined =>
        rw [List.range'_succ] at hdefined
        obtain ⟨rfl, hdefined⟩ := List.cons.inj hdefined
        rw [← ih hrest himports hdefined]

variable {r : FunctionRegistry} {indices : List Nat}

theorem ImportsFirst.length_eq (h : ImportsFirst r indices) : indices.length = r.count := by
  rw [h.perm.length_eq, List.length_range]

theorem ImportsFirst.lt_count (h : ImportsFirst r indices) {id index : Nat}
    (hindex : indices[id]? = some index) : index < r.count :=
  List.mem_range.mp (h.perm.mem_iff.mp (List.mem_of_getElem? hindex))

theorem ImportsFirst.exists_entry (h : ImportsFirst r indices) {index : Nat}
    (hindex : index < r.count) :
    ∃ (id : Nat) (e : FunctionEntry), r.entries[id]? = some e ∧ indices[id]? = some index := by
  have hmem : index ∈ indices := h.perm.mem_iff.mpr (List.mem_range.mpr hindex)
  obtain ⟨id, hid⟩ := List.getElem?_of_mem hmem
  have hlt : id < r.count := h.length_eq ▸ (List.getElem?_eq_some_iff.mp hid).1
  exact ⟨id, _, List.getElem?_eq_getElem hlt, hid⟩

theorem ImportsFirst.pairwise_part (h : ImportsFirst r indices) {p : FunctionEntry → Bool}
    (hp : ∀ e e', p e = true → p e' = true → e.isImport = e'.isImport) :
    (part p r.entries indices).Pairwise (· < ·) := by
  unfold part
  rw [List.pairwise_map, List.pairwise_filter, List.pairwise_iff_getElem]
  intro i j hi hj hlt hpi hpj
  rw [List.getElem_zip] at hpi hpj ⊢
  rw [List.getElem_zip]
  exact h.increasing i j _ _ _ _ (List.getElem?_eq_getElem _) (List.getElem?_eq_getElem _)
    (hp _ _ hpi hpj) (List.getElem?_eq_getElem _) (List.getElem?_eq_getElem _) hlt

theorem ImportsFirst.part_imports (h : ImportsFirst r indices) :
    part FunctionEntry.isImport r.entries indices = List.range' 0 r.importCount := by
  have hincreasing := h.pairwise_part (p := FunctionEntry.isImport)
    fun e e' he he' => he.trans he'.symm
  refine hincreasing.eq_of_mem_iff List.pairwise_lt_range' fun index => ?_
  rw [mem_part, List.mem_range'_1]
  constructor
  · rintro ⟨id, e, he, hindex, himport⟩
    have hlt := (h.imports id e index he hindex).mpr himport
    omega
  · intro hlt
    have hcount := importCount_add r
    have hbelow : index < r.count := by omega
    obtain ⟨id, e, he, hindex⟩ := h.exists_entry hbelow
    exact ⟨id, e, he, hindex, (h.imports id e index he hindex).mp (by omega)⟩

theorem ImportsFirst.part_defined (h : ImportsFirst r indices) :
    part (!·.isImport) r.entries indices =
      List.range' r.importCount (r.entries.countP (!·.isImport)) := by
  have hincreasing := h.pairwise_part (p := (!·.isImport)) fun e e' he he' =>
    Bool.not_inj (he.trans he'.symm)
  refine hincreasing.eq_of_mem_iff List.pairwise_lt_range' fun index => ?_
  have hcount := importCount_add r
  rw [mem_part, List.mem_range'_1, hcount]
  constructor
  · rintro ⟨id, e, he, hindex, hdefined⟩
    have hnot : ¬ index < r.importCount := by
      rw [h.imports id e index he hindex]
      simpa using hdefined
    exact ⟨Nat.le_of_not_lt hnot, h.lt_count hindex⟩
  · rintro ⟨hle, hlt⟩
    obtain ⟨id, e, he, hindex⟩ := h.exists_entry hlt
    have hnot : ¬ e.isImport = true := by
      rw [← h.imports id e index he hindex]
      omega
    exact ⟨id, e, he, hindex, by simpa using hnot⟩

/-- **The index space of a module.** The numbering of a registry puts imports first and keeps the
order of each group, and it is the only numbering that does. -/
theorem importsFirst_iff (r : FunctionRegistry) (indices : List Nat) :
    ImportsFirst r indices ↔ indices = r.moduleIndices := by
  constructor
  · intro h
    exact eq_numberFrom h.length_eq h.part_imports h.part_defined
  · rintro rfl
    exact importsFirst_moduleIndices r

end WasmBackend.FunctionRegistry
