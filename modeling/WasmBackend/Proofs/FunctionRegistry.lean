import Mathlib.Data.List.Nodup
import WasmBackend.FunctionRegistry
import WasmBackend.Proofs.Immediates

/-! # Functions of a module

A function that was asked for is known by the number that was given for it. The functions of a
registry are numbered by their places, and their bodies call nothing (`Sound`).

In the finished module an import has as its index the number of imports before it, and any other
function comes after all imports, by the number of such functions before it (`indexOf?`). -/

namespace WasmBackend

/-- Target code in the body calls nothing. -/
def FunctionBody.CallFree : FunctionBody → Prop
  | .code ops => ∀ op ∈ ops, op.isCallFree = true
  | .hostScript _ _ => True

namespace FunctionRegistry

theorem entry_of_lt {r : FunctionRegistry} {id : Nat} (h : id < r.entries.length) :
    ∃ e, r.entry id = .ok e := by
  refine ⟨r.entries[id], ?_⟩
  unfold entry get?
  rw [List.getElem?_eq_getElem h]

theorem insert_lt (r : FunctionRegistry) (name : FunctionName) (isImport : Bool)
    (body : Option FunctionBody) :
    (r.insert name isImport body).1 < (r.insert name isImport body).2.entries.length := by
  unfold insert
  split
  · next id hid => exact (List.findIdx?_eq_some_iff_getElem.mp hid).1
  · simp [add]

theorem entry_markSynthetic (r : FunctionRegistry) (name : FunctionName) (body : FunctionBody) :
    ∃ e, (r.markSynthetic name body).2.entry (r.markSynthetic name body).1 = .ok e :=
  entry_of_lt (r.insert_lt name _ _)

/-! ### The invariant -/

/-- What holds of every registry of a module. -/
structure Sound (r : FunctionRegistry) : Prop where
  /-- A function is numbered by its place. -/
  numbered : r.entries.map FunctionEntry.id = List.range r.count
  callFree : ∀ e ∈ r.entries, ∀ body, e.body = some body → body.CallFree

theorem sound_empty : Sound {} := ⟨rfl, by simp⟩

theorem Sound.add {r : FunctionRegistry} (h : Sound r) (name : FunctionName) (isImport : Bool)
    {body : Option FunctionBody} (hbody : ∀ b, body = some b → b.CallFree) :
    Sound (r.add name isImport body) := by
  refine ⟨?_, ?_⟩
  · simp only [FunctionRegistry.add, count, List.map_append, h.numbered, List.length_append,
      List.length_singleton, List.range_succ]
    rfl
  · intro e he b hb
    rcases List.mem_append.mp he with hold | hnew
    · exact h.callFree e hold b hb
    · obtain rfl := List.mem_singleton.mp hnew
      exact hbody b hb

theorem Sound.insert {r : FunctionRegistry} (h : Sound r) (name : FunctionName) (isImport : Bool)
    {body : Option FunctionBody} (hbody : ∀ b, body = some b → b.CallFree) :
    Sound (r.insert name isImport body).2 := by
  unfold FunctionRegistry.insert
  split
  · exact h
  · exact h.add name isImport hbody

theorem Sound.mark {r : FunctionRegistry} (h : Sound r) (name : FunctionName) (isImport : Bool) :
    Sound (r.mark name isImport).2 :=
  h.insert name isImport (by simp)

theorem Sound.markSynthetic {r : FunctionRegistry} (h : Sound r) (name : FunctionName)
    {body : FunctionBody} (hbody : body.CallFree) : Sound (r.markSynthetic name body).2 :=
  h.insert name _ fun _ hb => Option.some.inj hb ▸ hbody

theorem Sound.markReplacing {r : FunctionRegistry} (h : Sound r) (name : FunctionName)
    {body : FunctionBody} (hbody : body.CallFree) : Sound (r.markReplacing name body).2 := by
  unfold FunctionRegistry.markReplacing
  split
  · next id hid =>
    refine ⟨?_, ?_⟩
    · rw [count, List.length_modify, ← count, ← h.numbered]
      refine List.ext_getElem? fun place => ?_
      rw [List.getElem?_map, List.getElem?_map, List.getElem?_modify]
      rcases r.entries[place]? with _ | e
      · rfl
      · simp only [Option.map_eq_map, Option.map_some]
        split_ifs <;> rfl
    · intro e he b hb
      obtain ⟨place, hplace⟩ := List.getElem?_of_mem he
      rw [List.getElem?_modify] at hplace
      obtain ⟨old, hold, rfl⟩ := Option.map_eq_some_iff.mp hplace
      split_ifs at hb
      · cases hb
        exact hbody
      · exact h.callFree old (List.mem_of_getElem? hold) b hb
  · exact h.add name _ fun _ hb => Option.some.inj hb ▸ hbody

theorem count_le_insert (r : FunctionRegistry) (name : FunctionName) (isImport : Bool)
    (body : Option FunctionBody) : r.count ≤ (r.insert name isImport body).2.count := by
  unfold FunctionRegistry.insert
  split
  · exact Nat.le_refl _
  · simp [FunctionRegistry.add, count]

theorem count_le_markReplacing (r : FunctionRegistry) (name : FunctionName) (body : FunctionBody) :
    r.count ≤ (r.markReplacing name body).2.count := by
  unfold FunctionRegistry.markReplacing
  split
  · simp [count]
  · simp [FunctionRegistry.add, count]

/-! ### Indices in the finished module -/

/-- The index of a function in the finished module. -/
def indexOf? (r : FunctionRegistry) (id : Nat) : Option Nat :=
  r.entries[id]?.map fun e =>
    if e.isImport then (r.entries.take id).countP FunctionEntry.isImport
    else r.importCount + (r.entries.take id).countP (!·.isImport)

theorem getElem?_numberFrom (nextImport nextDefined : Nat) (entries : List FunctionEntry)
    (id : Nat) :
    (numberFrom nextImport nextDefined entries)[id]? = entries[id]?.map fun e =>
      if e.isImport then nextImport + (entries.take id).countP FunctionEntry.isImport
      else nextDefined + (entries.take id).countP (!·.isImport) := by
  induction entries generalizing nextImport nextDefined id with
  | nil => simp [numberFrom]
  | cons e rest ih =>
    cases id with
    | zero => cases he : e.isImport <;> simp [numberFrom, he]
    | succ id =>
      cases he : e.isImport with
      | false =>
        simp only [numberFrom, he, Bool.false_eq_true, if_false, List.getElem?_cons_succ, ih,
          List.take_succ_cons, List.countP_cons]
        simp [Nat.add_assoc, Nat.add_comm 1]
      | true =>
        simp only [numberFrom, he, if_true, List.getElem?_cons_succ, ih, List.take_succ_cons,
          List.countP_cons]
        simp [Nat.add_assoc, Nat.add_comm 1]

theorem getElem?_moduleIndices (r : FunctionRegistry) (id : Nat) :
    r.moduleIndices[id]? = r.indexOf? id := by
  unfold moduleIndices indexOf?
  rw [getElem?_numberFrom]
  simp

theorem get_ofRegistry {r : FunctionRegistry} {id index : Nat} :
    (ModuleIndices.ofRegistry r).get id = .ok index ↔ r.indexOf? id = some index := by
  unfold ModuleIndices.get
  rw [show (ModuleIndices.ofRegistry r).indices = r.moduleIndices from rfl, getElem?_moduleIndices]
  cases r.indexOf? id <;> simp

theorem countP_take_lt {entries : List FunctionEntry} {id : Nat} {e : FunctionEntry}
    (h : entries[id]? = some e) {p : FunctionEntry → Bool} (hp : p e = true) :
    (entries.take id).countP p < entries.countP p := by
  obtain ⟨hid, rfl⟩ := List.getElem?_eq_some_iff.mp h
  have hsplit : entries.countP p =
      (entries.take id).countP p + (entries.drop id).countP p := by
    rw [← List.countP_append, List.take_append_drop]
  rw [List.drop_eq_getElem_cons hid, List.countP_cons_of_pos hp] at hsplit
  omega

theorem importCount_add (r : FunctionRegistry) :
    r.importCount + r.entries.countP (!·.isImport) = r.count := by
  have h := List.length_eq_countP_add_countP FunctionEntry.isImport (l := r.entries)
  simp only [Bool.not_eq_true, Bool.decide_eq_false] at h
  exact h.symm

theorem indexOf?_lt {r : FunctionRegistry} {id index : Nat} (h : r.indexOf? id = some index) :
    index < r.count := by
  obtain ⟨e, he, rfl⟩ := Option.map_eq_some_iff.mp h
  have hcount := importCount_add r
  split_ifs with himport
  · have hbefore := countP_take_lt he (p := FunctionEntry.isImport) himport
    unfold importCount at hcount
    omega
  · have hbefore := countP_take_lt he (p := (!·.isImport)) (by simpa using himport)
    show r.importCount + (r.entries.take id).countP (!·.isImport) < r.count
    omega

theorem countP_take_lt_take {entries : List FunctionEntry} {a b : Nat} {e : FunctionEntry}
    (ha : entries[a]? = some e) {p : FunctionEntry → Bool} (hp : p e = true) (hlt : a < b) :
    (entries.take a).countP p < (entries.take b).countP p := by
  have hin : (entries.take b)[a]? = some e := by
    rw [List.getElem?_take, if_pos hlt, ha]
  have hbefore := countP_take_lt hin hp
  rwa [List.take_take, Nat.min_eq_left (Nat.le_of_lt hlt)] at hbefore

theorem countP_take_inj {entries : List FunctionEntry} {a b : Nat} {e e' : FunctionEntry}
    (ha : entries[a]? = some e) (hb : entries[b]? = some e') {p : FunctionEntry → Bool}
    (hp : p e = true) (hp' : p e' = true)
    (h : (entries.take a).countP p = (entries.take b).countP p) : a = b := by
  rcases Nat.lt_trichotomy a b with hlt | heq | hgt
  · have hless := countP_take_lt_take ha hp hlt
    omega
  · exact heq
  · have hless := countP_take_lt_take hb hp' hgt
    omega

/-- Different functions have different indices. -/
theorem indexOf?_inj {r : FunctionRegistry} {a b index : Nat} (ha : r.indexOf? a = some index)
    (hb : r.indexOf? b = some index) : a = b := by
  obtain ⟨e, he, hindex⟩ := Option.map_eq_some_iff.mp ha
  obtain ⟨e', he', hindex'⟩ := Option.map_eq_some_iff.mp hb
  have hsame := hindex.trans hindex'.symm
  by_cases himport : e.isImport = true
  · by_cases himport' : e'.isImport = true
    · rw [if_pos himport, if_pos himport'] at hsame
      exact countP_take_inj he he' himport himport' hsame
    · have hless : (r.entries.take a).countP FunctionEntry.isImport < r.importCount :=
        countP_take_lt he himport
      rw [if_pos himport, if_neg himport'] at hsame
      exact absurd (hsame ▸ hless) (Nat.not_lt.mpr (Nat.le_add_right _ _))
  · by_cases himport' : e'.isImport = true
    · have hless : (r.entries.take b).countP FunctionEntry.isImport < r.importCount :=
        countP_take_lt he' himport'
      rw [if_neg himport, if_pos himport'] at hsame
      exact absurd (hsame ▸ hless) (Nat.not_lt.mpr (Nat.le_add_right _ _))
    · rw [if_neg himport, if_neg himport'] at hsame
      exact countP_take_inj he he' (by simpa using himport) (by simpa using himport')
        (Nat.add_left_cancel hsame)

/-! ### Functions that need a body -/

/-- The function with a number is imported. -/
def IsImport (r : FunctionRegistry) (id : Nat) : Prop :=
  ∃ e, r.entries[id]? = some e ∧ e.isImport = true

/-- The numbers of the functions that are not imported, in the order of their indices. -/
def definedIds (r : FunctionRegistry) : List Nat :=
  (r.entries.filter (!·.isImport)).map FunctionEntry.id

theorem length_definedIds (r : FunctionRegistry) :
    r.definedIds.length = r.count - r.importCount := by
  have hcount := importCount_add r
  rw [definedIds, List.length_map, ← List.countP_eq_length_filter]
  omega

theorem Sound.id_eq {r : FunctionRegistry} (h : Sound r) {id : Nat} {e : FunctionEntry}
    (he : r.entries[id]? = some e) : e.id = id := by
  have hid : (r.entries.map FunctionEntry.id)[id]? = some e.id := by
    rw [List.getElem?_map, he]
    rfl
  rw [h.numbered] at hid
  obtain ⟨_, hval⟩ := List.getElem?_eq_some_iff.mp hid
  rw [List.getElem_range] at hval
  exact hval.symm

theorem Sound.codeFunctions {r : FunctionRegistry} (h : Sound r) {e : FunctionEntry}
    {ops : List CodeOp} (he : (e, ops) ∈ r.codeFunctions) :
    e.id < r.count ∧ ∀ op ∈ ops, op.isCallFree = true := by
  obtain ⟨e', he', hbody⟩ := List.mem_filterMap.mp he
  split at hbody
  · next ops' hcode =>
    cases hbody
    obtain ⟨place, hplace⟩ := List.getElem?_of_mem he'
    have hlt := (List.getElem?_eq_some_iff.mp hplace).1
    rw [h.id_eq hplace]
    exact ⟨hlt, h.callFree _ he' _ hcode⟩
  · cases hbody

theorem Sound.nodup_definedIds {r : FunctionRegistry} (h : Sound r) : r.definedIds.Nodup := by
  have hsub : r.definedIds.Sublist (r.entries.map FunctionEntry.id) :=
    List.filter_sublist.map _
  rw [h.numbered] at hsub
  exact hsub.nodup List.nodup_range

theorem getElem?_filter_countP {entries : List FunctionEntry} {id : Nat} {e : FunctionEntry}
    (h : entries[id]? = some e) {p : FunctionEntry → Bool} (hp : p e = true) :
    (entries.filter p)[(entries.take id).countP p]? = some e := by
  obtain ⟨hid, rfl⟩ := List.getElem?_eq_some_iff.mp h
  have hsplit : entries.filter p =
      (entries.take id).filter p ++ (entries.drop id).filter p := by
    rw [← List.filter_append, List.take_append_drop]
  rw [hsplit, List.countP_eq_length_filter, List.getElem?_append_right (Nat.le_refl _),
    Nat.sub_self, List.drop_eq_getElem_cons hid, List.filter_cons_of_pos hp]
  rfl

/-- An index below the number of imports belongs to an import, any other one to the function at its
place among those that are not imported. -/
theorem Sound.indexOf?_cases {r : FunctionRegistry} (h : Sound r) {id index : Nat}
    (hindex : r.indexOf? id = some index) :
    (r.IsImport id ∧ index < r.importCount) ∨
      (¬ r.IsImport id ∧ ∃ place, index = r.importCount + place ∧
        r.definedIds[place]? = some id) := by
  obtain ⟨e, he, rfl⟩ := Option.map_eq_some_iff.mp hindex
  split_ifs with himport
  · exact Or.inl ⟨⟨e, he, himport⟩, countP_take_lt he himport⟩
  · refine Or.inr ⟨?_, (r.entries.take id).countP (!·.isImport), rfl, ?_⟩
    · rintro ⟨e', he', himport'⟩
      cases he.symm.trans he'
      exact himport himport'
    · have hplace := getElem?_filter_countP he (p := (!·.isImport)) (by simpa using himport)
      rw [definedIds, List.getElem?_map, hplace, Option.map_some, h.id_eq he]

theorem indexOf?_of_lt {r : FunctionRegistry} {id : Nat} (h : id < r.count) :
    ∃ index, r.indexOf? id = some index := by
  unfold indexOf?
  rw [List.getElem?_eq_getElem h]
  exact ⟨_, rfl⟩

end FunctionRegistry

end WasmBackend
