import WasmBackend.Proofs.CodeFunctions

/-! # Numbers of classes

A registry starts with the string class and is asked for struct and array classes in any order; a
request for an array class fails if the element type is a class that is not registered. Struct
classes, wrappers and buffers share the indices of the type section, and struct and array classes
share the vtable numbers. Each of the two counters stands at the number of what it has handed out
(`Numbered`), a class comes after the classes that its storage refers to, and an array class keeps
its number for ever (`classes_over_runs`). -/

namespace WasmBackend.TypeRegistry

/-! ### Indices of the type section -/

/-- The indices that were given to struct classes, to the wrappers of array classes and to their
buffers. -/
def typeIndices (t : TypeRegistry) : List Nat :=
  t.structs.map StructClass.typeIndex ++ t.arrays.map ArrayClass.typeIndex ++
    t.arrays.filterMap fun a => a.native?.map NativeArray.typeIndex

theorem perm_classDefs (arrays : List ArrayClass) :
    (arrays.map ArrayClass.typeIndex ++
      arrays.filterMap fun a => a.native?.map NativeArray.typeIndex).Perm
      ((arrays.flatMap classDefs).map Prod.fst) := by
  induction arrays with
  | nil => exact .refl _
  | cons a rest ih =>
    have hkept := ih.cons a.typeIndex
    cases hn : a.native? with
    | none => simpa [classDefs, hn] using hkept
    | some native =>
      have hdefs : ((a :: rest).flatMap classDefs).map Prod.fst =
          native.typeIndex :: a.typeIndex :: (rest.flatMap classDefs).map Prod.fst := by
        simp [classDefs, hn]
      rw [hdefs]
      simp only [List.map_cons, List.filterMap_cons, hn, Option.map_some]
      exact List.perm_middle.trans (hkept.cons native.typeIndex)

theorem perm_typeSection (t : TypeRegistry) : t.typeIndices.Perm (t.typeSection.map Prod.fst) := by
  have hstructs : t.structs.map StructClass.typeIndex =
      (t.structs.map fun s => (s.typeIndex, TypeDef.object s.id)).map Prod.fst := by simp
  unfold typeIndices typeSection
  rw [List.append_assoc, List.map_append, ← hstructs]
  exact (perm_classDefs t.arrays).append_left _

theorem WellFormed.lt_of_mem {t : TypeRegistry} (h : WellFormed t) {index : Nat}
    (hindex : index ∈ t.typeIndices) : index < t.nextTypeIndex := by
  have hsection := (perm_typeSection t).mem_iff.mp hindex
  exact List.mem_range.mp (h.indices.mem_iff.mp hsection)

/-- A type that is stored as a reference refers to an index that was given before. -/
theorem WellFormed.lt_of_storageType {t : TypeRegistry} (h : WellFormed t) {ty : OperandType}
    {index : Nat} (hty : t.storageType ty = .ok (.ref index)) : index < t.nextTypeIndex := by
  have href : ∀ {given : Nat}, t.classReference given = .ref index → given = index := by
    intro given hgiven
    unfold classReference at hgiven
    split_ifs at hgiven
    exact WasmType.ref.inj hgiven
  refine h.lt_of_mem ?_
  cases ty with
  | value ty => cases hty
  | struct id =>
    obtain ⟨s, hs, hgiven⟩ := map_eq_ok.mp hty
    have hmem := List.mem_of_getElem? (structClass_eq_ok.mp hs)
    rw [← href hgiven]
    simp only [typeIndices, List.mem_append]
    exact .inl (.inl (List.mem_map_of_mem hmem))
  | array id =>
    obtain ⟨a, ha, hgiven⟩ := map_eq_ok.mp hty
    have hmem := List.mem_of_getElem? (arrayClass_eq_ok.mp ha)
    rw [← href hgiven]
    simp only [typeIndices, List.mem_append]
    exact .inl (.inr (List.mem_map_of_mem hmem))

/-! ### The order of the classes -/

/-- The vtable numbers that were given to struct and array classes. -/
def vtables (t : TypeRegistry) : List Nat :=
  t.structs.map StructClass.vtable ++ t.arrays.map ArrayClass.vtable

/-- An array class comes after what its elements are, and its buffer after what it stores and before
its wrapper. -/
structure ComesAfterParts (a : ArrayClass) : Prop where
  element : ∀ j, a.element = .array j → j < a.id
  buffer : ∀ native, a.native? = some native → native.typeIndex < a.typeIndex
  storage : ∀ native index, a.native? = some native → native.storage = .ref index →
    index < native.typeIndex

/-- What is handed out when a class is added, besides the indices of the type section. -/
structure Ordered (t : TypeRegistry) : Prop where
  /-- A struct class is numbered by its place. -/
  struct_id : ∀ (i : Nat) (s : StructClass), t.structs[i]? = some s → s.id = i
  /-- The vtable numbers are those below the next one, each given once. -/
  vtables : t.vtables.Perm (List.range t.nextVtable)
  parts : ∀ a ∈ t.arrays, ComesAfterParts a

theorem ordered_empty (useGc : Bool) :
    Ordered { useGc, structs := [], arrays := [], nextTypeIndex := 0, nextVtable := 0 } where
  struct_id := by simp
  vtables := by simp [TypeRegistry.vtables]
  parts := by simp

theorem Ordered.registerStruct {t : TypeRegistry} (h : Ordered t) (name : String)
    (fields : List OperandType) : Ordered (t.registerStruct name fields).2 := by
  unfold TypeRegistry.registerStruct
  split
  · exact h
  · refine ⟨?_, ?_, h.parts⟩
    · intro i s hs
      rcases getElem?_concat_eq_some.mp hs with hold | ⟨rfl, rfl⟩
      · exact h.struct_id i s hold
      · rfl
    · -- the new number stands between those of the structs and those of the arrays
      have hmiddle : (t.structs.map StructClass.vtable ++
          t.nextVtable :: t.arrays.map ArrayClass.vtable).Perm (t.nextVtable :: t.vtables) :=
        List.perm_middle
      have hlast := (h.vtables.cons t.nextVtable).trans (List.perm_append_singleton _ _).symm
      simpa [TypeRegistry.vtables, List.range_succ] using hmiddle.trans hlast

theorem Ordered.addArray {t : TypeRegistry} (h : Ordered t) (hwf : WellFormed t)
    {element : OperandType} {elementLocal storage : WasmType}
    (hlower : t.lower element = .ok elementLocal)
    (hstorage : t.storageType element = .ok storage) (name : String) :
    Ordered (t.addArray element name elementLocal storage) := by
  refine ⟨h.struct_id, ?_, ?_⟩
  · have hlast := h.vtables.append_right [t.nextVtable]
    simpa [TypeRegistry.vtables, TypeRegistry.addArray, List.range_succ] using hlast
  · intro a ha
    rcases List.mem_append.mp ha with hold | hnew
    · exact h.parts a hold
    · cases List.mem_singleton.mp hnew
      refine ⟨?_, ?_, ?_⟩
      · rintro j rfl
        exact knows_of_lower hlower
      · intro native hnative
        simp only at hnative ⊢
        split_ifs at hnative ⊢
        cases hnative
        exact Nat.lt_succ_self _
      · intro native index hnative href
        simp only at hnative
        split_ifs at hnative
        cases hnative
        have hstored : t.storageType element = .ok (.ref index) := by
          rw [hstorage]
          exact congrArg Except.ok href
        exact hwf.lt_of_storageType hstored

/-- **Every registry orders its classes.** -/
theorem ordered_of_grows {useGc : Bool} {t : TypeRegistry} (h : Grows (.new useGc) t) :
    Ordered t := by
  induction h with
  | refl => exact (ordered_empty useGc).registerStruct ..
  | registerStruct name fields _ ih => exact ih.registerStruct name fields
  | internArray hgrows h ih =>
    rcases internArray_eq_ok h with ⟨-, rfl⟩ | ⟨-, -, d, elementLocal, storage, -, hl, hs, rfl⟩
    · exact ih
    · exact ih.addArray (wellFormed_of_grows hgrows) hl hs ("[" ++ d)

/-! ### Asking for an array class -/

theorem Extends.arrayOf? {t t' : TypeRegistry} (h : Extends t t') {element : OperandType} {id : Nat}
    (hid : t.arrayOf? element = some id) : t'.arrayOf? element = some id := by
  obtain ⟨a, ha, rfl⟩ := Option.map_eq_some_iff.mp hid
  obtain ⟨more, hmore⟩ := h.arrays
  unfold TypeRegistry.arrayOf?
  rw [← hmore, List.find?_append, ha]
  rfl

theorem arrayOf?_of_internArray {t t' : TypeRegistry} {element : OperandType} {id : Nat}
    (h : t.internArray element = (.ok id, t')) : t'.arrayOf? element = some id := by
  rcases internArray_eq_ok h with ⟨hknown, rfl⟩ | ⟨hnone, rfl, d, elementLocal, storage, -, -, -, rfl⟩
  · exact hknown
  · have hfind : t.arrays.find? (fun a => a.element = element) = none := by
      simpa [TypeRegistry.arrayOf?] using hnone
    unfold TypeRegistry.arrayOf? TypeRegistry.addArray
    rw [List.find?_append, hfind]
    simp

theorem internArray_of_arrayOf? {t : TypeRegistry} {element : OperandType} {id : Nat}
    (h : t.arrayOf? element = some id) : t.internArray element = (.ok id, t) := by
  unfold TypeRegistry.internArray
  rw [h]

theorem exists_descriptor {t : TypeRegistry} {ty : OperandType} (h : t.Knows ty) :
    ∃ d, t.descriptor ty = .ok d := by
  obtain ⟨w, hw⟩ := lower_of_knows h
  exact Typing.descriptor_of_lower hw

theorem exists_storageType {t : TypeRegistry} {ty : OperandType} (h : t.Knows ty) :
    ∃ w, t.storageType ty = .ok w := by
  cases ty with
  | value ty => exact ⟨_, rfl⟩
  | struct id => exact lower_of_knows h
  | array id => exact lower_of_knows h

/-- **Asking for an array class fails exactly if the element type is a class that is not known.** -/
theorem WellFormed.exists_internArray_iff {t : TypeRegistry} (h : WellFormed t)
    (element : OperandType) :
    (∃ id t', t.internArray element = (.ok id, t')) ↔ t.Knows element := by
  constructor
  · rintro ⟨id, t', hok⟩
    rcases internArray_eq_ok hok with ⟨hknown, -⟩ | ⟨-, -, d, elementLocal, storage, -, hl, -, -⟩
    · obtain ⟨a, -, ha, rfl, -⟩ := arrayClass_of_arrayOf? h hknown
      exact knows_of_lower (h.elementLocal a ha)
    · exact knows_of_lower hl
  · intro hknows
    obtain ⟨d, hd⟩ := exists_descriptor hknows
    obtain ⟨elementLocal, hlower⟩ := lower_of_knows hknows
    obtain ⟨storage, hstorage⟩ := exists_storageType hknows
    unfold TypeRegistry.internArray
    split
    · exact ⟨_, t, rfl⟩
    · simp only [hd, hlower, hstorage]
      exact ⟨_, _, rfl⟩

/-! ### Numbers over whole runs -/

/-- How the classes of a registry are numbered. -/
structure Numbered (useGc : Bool) (t : TypeRegistry) : Prop where
  struct_id : ∀ (i : Nat) (s : StructClass), t.structs[i]? = some s → s.id = i
  array_id : ∀ (i : Nat) (a : ArrayClass), t.arrays[i]? = some a → a.id = i
  /-- No index of the type section is given twice, and none is left out. -/
  typeIndices : t.typeIndices.Perm (List.range t.nextTypeIndex)
  vtables : t.vtables.Perm (List.range t.nextVtable)
  parts : ∀ a ∈ t.arrays, ComesAfterParts a
  native_isSome : ∀ a ∈ t.arrays, a.native?.isSome = useGc

theorem numbered_of_grows {useGc : Bool} {t : TypeRegistry} (h : Grows (.new useGc) t) :
    Numbered useGc t := by
  have hwf := wellFormed_of_grows h
  have hordered := ordered_of_grows h
  have hprofile : t.useGc = useGc := h.extends.useGc
  exact ⟨hordered.struct_id, hwf.array_id, (perm_typeSection t).trans hwf.indices,
    hordered.vtables, hordered.parts, hprofile ▸ hwf.native_isSome⟩

/-- Somewhere in the run the array class of an element type was asked for and this number was the
answer. -/
def Gives (useGc : Bool) (calls : List Call) (element : OperandType) (id : Nat) : Prop :=
  ∃ before after next, calls = before ++ .internArray element :: after ∧
    (run (.new useGc) before).internArray element = (.ok id, next)

theorem Gives.arrayOf? {useGc : Bool} {calls : List Call} {element : OperandType} {id : Nat}
    (h : Gives useGc calls element id) :
    (run (.new useGc) calls).arrayOf? element = some id := by
  obtain ⟨before, after, next, rfl, hanswer⟩ := h
  have hnext : run (.new useGc) (before ++ .internArray element :: after) = next.run after := by
    rw [run_append, ← serve_of_internArray hanswer]
    rfl
  rw [hnext]
  exact (Grows.run .refl after).extends.arrayOf? (arrayOf?_of_internArray hanswer)

/-- **Classes over whole runs.** After any calls, in both profiles, classes are numbered by their
places, the indices of the type section and the vtable numbers are those below the two counters, each
given once, and an array class comes after its parts and has a buffer exactly with native types. A
number that was once given for an element type is given for it ever after and for no other one. A
request fails exactly if the element type is a class that is not registered, and then the registry
stays as it is. -/
theorem classes_over_runs (useGc : Bool) (calls : List Call) :
    let t := run (.new useGc) calls
    Numbered useGc t ∧
    (∀ element id, Gives useGc calls element id → t.internArray element = (.ok id, t)) ∧
    (∀ element element' id id', Gives useGc calls element id → Gives useGc calls element' id' →
      (id = id' ↔ element = element')) ∧
    (∀ element, (∃ id t', t.internArray element = (.ok id, t')) ↔ t.Knows element) ∧
    ∀ element e t', t.internArray element = (.error e, t') →
      t' = t ∧ t.serve (.internArray element) = t := by
  intro t
  have hgrows : Grows (.new useGc) t := Grows.run .refl calls
  have hwf := wellFormed_of_grows hgrows
  refine ⟨numbered_of_grows hgrows, ?_, ?_, hwf.exists_internArray_iff, ?_⟩
  · intro element id hgives
    exact internArray_of_arrayOf? hgives.arrayOf?
  · intro element element' id id' hgives hgives'
    have hid : t.arrayOf? element = some id := hgives.arrayOf?
    have hid' : t.arrayOf? element' = some id' := hgives'.arrayOf?
    constructor
    · rintro rfl
      obtain ⟨a, ha, -, helement, -⟩ := arrayClass_of_arrayOf? hwf hid
      obtain ⟨a', ha', -, helement', -⟩ := arrayClass_of_arrayOf? hwf hid'
      cases ha.symm.trans ha'
      exact helement.symm.trans helement'
    · rintro rfl
      exact Option.some.inj (hid.symm.trans hid')
  · intro element e t' hfailed
    obtain rfl := internArray_eq_error hfailed
    exact ⟨rfl, congrArg Prod.snd hfailed⟩

/-- Arrays of arrays are asked for before their elements are known, and again afterwards. -/
def nestedTooEarly : List Call :=
  [.internArray (.array 0), .internArray (.value .i8), .registerStruct "demo/Point" [.i32],
    .internArray (.array 0), .internArray (.value .i8)]

/-- Arrays of bytes have the number 0 and arrays of those the number 1 for ever. -/
theorem classes_over_runs_nestedTooEarly :
    let t := run (.new true) nestedTooEarly
    t.typeIndices = [0, 3, 2, 5, 1, 4] ∧ t.vtables = [0, 2, 1, 3] ∧
      Gives true nestedTooEarly (.array 0) 1 ∧ t.internArray (.array 0) = (.ok 1, t) ∧
      Gives true nestedTooEarly (.value .i8) 0 ∧ (0 = 1 ↔ OperandType.value .i8 = .array 0) ∧
      t.internArray (.struct 2) = (.error (.ofFault (.unknownStruct 2)), t) ∧
      t.serve (.internArray (.struct 2)) = t := by
  intro t
  have hnested : Gives true nestedTooEarly (.array 0) 1 :=
    ⟨nestedTooEarly.take 3, nestedTooEarly.drop 4, t, rfl, by decide +kernel⟩
  have hbytes : Gives true nestedTooEarly (.value .i8) 0 :=
    ⟨nestedTooEarly.take 4, [], t, rfl, by decide +kernel⟩
  have hunknown : t.internArray (.struct 2) = (.error (.ofFault (.unknownStruct 2)), t) := by
    decide +kernel
  obtain ⟨-, hagain, hapart, -, hfailing⟩ := classes_over_runs true nestedTooEarly
  exact ⟨by decide +kernel, by decide +kernel, hnested, hagain _ _ hnested, hbytes,
    hapart _ _ _ _ hbytes hnested, hunknown, (hfailing _ _ _ hunknown).2⟩

end WasmBackend.TypeRegistry
