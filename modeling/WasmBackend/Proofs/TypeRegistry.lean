import Mathlib.Data.List.Perm.Basic
import Mathlib.Data.List.Nodup
import WasmBackend.Proofs.Outcome
import WasmBackend.Proofs.RelatedLists
import WasmBackend.TypeRegistry

/-! # Classes of a module

Classes are only ever added to a registry, so that what it said of a type stays true
(`Extends`). Every registry that grows from an empty one is `WellFormed`: numbers are places, the
indices of the type section are handed out one after the other, and an array class holds the lowered
types of its elements.

The *type section* lists what stands at each index: `typeAt?_wrapper` and `typeAt?_buffer` say that
the wrapper and the buffer of an array class are found there. -/

namespace WasmBackend.TypeRegistry

/-! ### Growth -/

/-- The registry after more classes have been asked for. -/
inductive Grows (t : TypeRegistry) : TypeRegistry → Prop
  | refl : Grows t t
  | registerStruct {t' : TypeRegistry} (name : String) (fields : List OperandType) :
      Grows t t' → Grows t (t'.registerStruct name fields).2
  | internArray {t' t'' : TypeRegistry} {element : OperandType} {id : Nat} :
      Grows t t' → t'.internArray element = (.ok id, t'') → Grows t t''

/-- The other registry knows the same classes, and perhaps more. -/
structure Extends (t t' : TypeRegistry) : Prop where
  useGc : t'.useGc = t.useGc
  structs : t.structs <+: t'.structs
  arrays : t.arrays <+: t'.arrays

theorem Extends.refl (t : TypeRegistry) : Extends t t :=
  ⟨rfl, List.prefix_rfl, List.prefix_rfl⟩

theorem Extends.trans {t t' t'' : TypeRegistry} (h : Extends t t') (h' : Extends t' t'') :
    Extends t t'' :=
  ⟨h'.useGc.trans h.useGc, h.structs.trans h'.structs, h.arrays.trans h'.arrays⟩

theorem extends_registerStruct (t : TypeRegistry) (name : String) (fields : List OperandType) :
    Extends t (t.registerStruct name fields).2 := by
  unfold registerStruct
  split
  · exact .refl t
  · exact ⟨rfl, List.prefix_append _ _, List.prefix_rfl⟩

theorem extends_addArray (t : TypeRegistry) (element : OperandType) (name : String)
    (elementLocal storage : WasmType) :
    Extends t (t.addArray element name elementLocal storage) :=
  ⟨rfl, List.prefix_rfl, List.prefix_append _ _⟩

/-- Asking for an array class gives one that is known, or adds one whose element type is known. -/
theorem internArray_eq_ok {t t' : TypeRegistry} {element : OperandType} {id : Nat}
    (h : t.internArray element = (.ok id, t')) :
    (t.arrayOf? element = some id ∧ t' = t) ∨
      (t.arrayOf? element = none ∧ id = t.arrays.length ∧ ∃ d elementLocal storage,
        t.descriptor element = .ok d ∧ t.lower element = .ok elementLocal ∧
        t.storageType element = .ok storage ∧
        t' = t.addArray element ("[" ++ d) elementLocal storage) := by
  unfold internArray at h
  split at h
  · next known hknown =>
    cases h
    exact Or.inl ⟨hknown, rfl⟩
  · next hnone =>
    dsimp only at h
    split at h
    · next added hadded =>
      simp only [bind_eq_ok, pure_eq_ok] at hadded
      obtain ⟨d, hd, elementLocal, hlower, storage, hstorage, rfl⟩ := hadded
      cases h
      exact Or.inr ⟨hnone, rfl, d, elementLocal, storage, hd, hlower, hstorage, rfl⟩
    · cases h

theorem internArray_eq_error {t t' : TypeRegistry} {element : OperandType} {e : CompileError}
    (h : t.internArray element = (.error e, t')) : t' = t := by
  unfold internArray at h
  split at h
  · cases h
  · dsimp only at h
    split at h
    · cases h
    · cases h
      rfl

theorem Grows.extends {t t' : TypeRegistry} (h : Grows t t') : Extends t t' := by
  induction h with
  | refl => exact .refl t
  | registerStruct name fields _ ih => exact ih.trans (extends_registerStruct _ name fields)
  | internArray _ h ih =>
    rcases internArray_eq_ok h with ⟨-, rfl⟩ | ⟨-, -, d, elementLocal, storage, -, -, -, rfl⟩
    · exact ih
    · exact ih.trans (extends_addArray ..)

/-! ### Runs -/

/-- What a registry can be asked for. -/
inductive Call
  | registerStruct (name : String) (fields : List OperandType)
  | internArray (element : OperandType)
  deriving DecidableEq

/-- The registry after a call. -/
def serve (t : TypeRegistry) : Call → TypeRegistry
  | .registerStruct name fields => (t.registerStruct name fields).2
  | .internArray element => (t.internArray element).2

/-- The registry after some calls. -/
def run (t : TypeRegistry) (calls : List Call) : TypeRegistry := calls.foldl serve t

theorem run_append (t : TypeRegistry) (calls calls' : List Call) :
    t.run (calls ++ calls') = (t.run calls).run calls' :=
  List.foldl_append ..

theorem serve_of_internArray {t t' : TypeRegistry} {element : OperandType} {id : Nat}
    (h : t.internArray element = (.ok id, t')) : t.serve (.internArray element) = t' := by
  rw [serve, h]

theorem Grows.serve {t t' : TypeRegistry} (h : Grows t t') (c : Call) : Grows t (t'.serve c) := by
  cases c with
  | registerStruct name fields => exact .registerStruct name fields h
  | internArray element =>
    rcases hcall : t'.internArray element with ⟨e | id, next⟩
    · obtain rfl := internArray_eq_error hcall
      rw [TypeRegistry.serve, hcall]
      exact h
    · rw [serve_of_internArray hcall]
      exact .internArray h hcall

theorem Grows.run {t t' : TypeRegistry} (h : Grows t t') (calls : List Call) :
    Grows t (t'.run calls) := by
  induction calls generalizing t' with
  | nil => exact h
  | cons c rest ih => exact ih (h.serve c)

/-! ### Classes by number -/

theorem structClass_eq_ok {t : TypeRegistry} {id : Nat} {s : StructClass} :
    t.structClass id = .ok s ↔ t.structs[id]? = some s := by
  unfold structClass
  split
  · next hs => simp [hs]
  · next hs => simp [hs]

theorem arrayClass_eq_ok {t : TypeRegistry} {id : Nat} {a : ArrayClass} :
    t.arrayClass id = .ok a ↔ t.arrays[id]? = some a := by
  unfold arrayClass
  split
  · next ha => simp [ha]
  · next ha => simp [ha]

theorem Extends.structClass {t t' : TypeRegistry} (h : Extends t t') {id : Nat} {s : StructClass}
    (hs : t.structClass id = .ok s) : t'.structClass id = .ok s := by
  rw [structClass_eq_ok] at hs ⊢
  have hid : id < t.structs.length := (List.getElem?_eq_some_iff.mp hs).1
  rw [← hs, List.prefix_iff_getElem?.mp h.structs id hid, List.getElem?_eq_getElem hid]

theorem Extends.arrayClass {t t' : TypeRegistry} (h : Extends t t') {id : Nat} {a : ArrayClass}
    (ha : t.arrayClass id = .ok a) : t'.arrayClass id = .ok a := by
  rw [arrayClass_eq_ok] at ha ⊢
  have hid : id < t.arrays.length := (List.getElem?_eq_some_iff.mp ha).1
  rw [← ha, List.prefix_iff_getElem?.mp h.arrays id hid, List.getElem?_eq_getElem hid]

theorem Extends.lower {t t' : TypeRegistry} (h : Extends t t') {ty : OperandType} {w : WasmType}
    (hw : t.lower ty = .ok w) : t'.lower ty = .ok w := by
  cases ty with
  | value ty => exact hw
  | struct id =>
    obtain ⟨s, hs, rfl⟩ := map_eq_ok.mp hw
    simp [TypeRegistry.lower, h.structClass hs, classReference, h.useGc, Except.map]
  | array id =>
    obtain ⟨a, ha, rfl⟩ := map_eq_ok.mp hw
    simp [TypeRegistry.lower, h.arrayClass ha, classReference, h.useGc, Except.map]

theorem Extends.storageType {t t' : TypeRegistry} (h : Extends t t') {ty : OperandType}
    {w : WasmType} (hw : t.storageType ty = .ok w) : t'.storageType ty = .ok w := by
  cases ty with
  | value ty => exact hw
  | struct id => exact h.lower (show t.lower (.struct id) = _ from hw)
  | array id => exact h.lower (show t.lower (.array id) = _ from hw)

theorem lower_widened (t : TypeRegistry) (ty : OperandType) : t.lower ty.widened = t.lower ty := by
  cases ty with
  | value ty => simp [OperandType.widened, lower]
  | struct id => rfl
  | array id => rfl

/-! ### The type section -/

/-- What stands at an index of the type section. -/
inductive TypeDef
  /-- A struct class, whose fields generated code does not touch. -/
  | object (id : Nat)
  /-- The wrapper of an array class. -/
  | wrapper (fields : List WasmType)
  /-- An array with elements of a storage type. -/
  | buffer (storage : WasmType)
  deriving DecidableEq

/-- The entries of an array class: its buffer, if it has one, and its wrapper of vtable, hash code
and buffer. -/
def classDefs (a : ArrayClass) : List (Nat × TypeDef) :=
  match a.native? with
  | some native =>
    [(native.typeIndex, .buffer native.storage),
      (a.typeIndex, .wrapper [.value .i32, .value .i32, .ref native.typeIndex])]
  | none => [(a.typeIndex, .wrapper [.value .i32, .value .i32, .value .externRef])]

/-- The entries of the type section with their indices. -/
def typeSection (t : TypeRegistry) : List (Nat × TypeDef) :=
  t.structs.map (fun s => (s.typeIndex, .object s.id)) ++ t.arrays.flatMap classDefs

/-- What stands at an index of the type section. -/
def typeAt? (t : TypeRegistry) (index : Nat) : Option TypeDef := t.typeSection.lookup index

/-! ### The invariant -/

/-- What holds of every registry. -/
structure WellFormed (t : TypeRegistry) : Prop where
  /-- An array class is numbered by its place. -/
  array_id : ∀ (i : Nat) (a : ArrayClass), t.arrays[i]? = some a → a.id = i
  /-- The indices of the type section are those below the next one, each given once. -/
  indices : (t.typeSection.map Prod.fst).Perm (List.range t.nextTypeIndex)
  elementLocal : ∀ a ∈ t.arrays, t.lower a.element = .ok a.elementLocal
  native_isSome : ∀ a ∈ t.arrays, a.native?.isSome = t.useGc
  storage : ∀ a ∈ t.arrays, ∀ native, a.native? = some native →
    t.storageType a.element = .ok native.storage

theorem wellFormed_empty (useGc : Bool) :
    WellFormed { useGc, structs := [], arrays := [], nextTypeIndex := 0, nextVtable := 0 } where
  array_id := by simp
  indices := by simp [typeSection]
  elementLocal := by simp
  native_isSome := by simp
  storage := by simp

theorem WellFormed.registerStruct {t : TypeRegistry} (h : WellFormed t) (name : String)
    (fields : List OperandType) : WellFormed (t.registerStruct name fields).2 := by
  have hext := extends_registerStruct t name fields
  unfold TypeRegistry.registerStruct at hext ⊢
  split at hext
  · exact h
  · refine ⟨h.array_id, ?_, ?_, h.native_isSome, ?_⟩
    · simp only [typeSection, List.map_append, List.map_cons, List.map_nil, List.append_assoc,
        List.singleton_append, List.range_succ]
      refine List.perm_middle.trans ((List.perm_append_singleton _ _).symm.trans ?_)
      exact List.Perm.append_right _ (by simpa [typeSection] using h.indices)
    · exact fun a ha => hext.lower (h.elementLocal a ha)
    · exact fun a ha native hn => hext.storageType (h.storage a ha native hn)

theorem WellFormed.addArray {t : TypeRegistry} (h : WellFormed t) {element : OperandType}
    {elementLocal storage : WasmType} (hlower : t.lower element = .ok elementLocal)
    (hstorage : t.storageType element = .ok storage) (name : String) :
    WellFormed (t.addArray element name elementLocal storage) := by
  have hext := extends_addArray t element name elementLocal storage
  refine ⟨?_, ?_, ?_, ?_, ?_⟩
  · intro i a ha
    rcases getElem?_concat_eq_some.mp ha with hold | ⟨rfl, rfl⟩
    · exact h.array_id i a hold
    · rfl
  · have hold := h.indices
    unfold typeSection TypeRegistry.addArray at *
    simp only [List.flatMap_append, List.map_append, ← List.append_assoc] at hold ⊢
    cases hgc : t.useGc with
    | false =>
      simp only [Bool.false_eq_true, if_false, List.range_succ]
      exact hold.append_right _
    | true =>
      simp only [if_true, List.range_succ, List.append_assoc _ [_] [_]]
      exact hold.append_right _
  · intro a ha
    rcases List.mem_append.mp ha with ha | ha
    · exact hext.lower (h.elementLocal a ha)
    · cases List.mem_singleton.mp ha
      exact hext.lower hlower
  · intro a ha
    rcases List.mem_append.mp ha with ha | ha
    · exact h.native_isSome a ha
    · cases List.mem_singleton.mp ha
      show Option.isSome (if t.useGc then _ else _) = t.useGc
      cases t.useGc <;> rfl
  · intro a ha native hn
    rcases List.mem_append.mp ha with ha | ha
    · exact hext.storageType (h.storage a ha native hn)
    · cases List.mem_singleton.mp ha
      have hn' : (if t.useGc then some (NativeArray.mk t.nextTypeIndex storage) else none) =
          some native := hn
      split_ifs at hn'
      cases hn'
      exact hext.storageType hstorage

/-- **Every registry is well-formed.** -/
theorem wellFormed_of_grows {useGc : Bool} {t : TypeRegistry} (h : Grows (.new useGc) t) :
    WellFormed t := by
  induction h with
  | refl => exact (wellFormed_empty useGc).registerStruct ..
  | registerStruct name fields _ ih => exact ih.registerStruct name fields
  | internArray _ h ih =>
    rcases internArray_eq_ok h with ⟨-, rfl⟩ | ⟨-, -, d, elementLocal, storage, -, hl, hs, rfl⟩
    · exact ih
    · exact ih.addArray hl hs ("[" ++ d)

/-! ### What the invariant says of an array class -/

theorem WellFormed.arrayClass_of_mem {t : TypeRegistry} (h : WellFormed t) {a : ArrayClass}
    (ha : a ∈ t.arrays) : t.arrayClass a.id = .ok a := by
  obtain ⟨i, hi⟩ := List.getElem?_of_mem ha
  rw [arrayClass_eq_ok, h.array_id i a hi]
  exact hi

theorem arrayClass_of_arrayOf? {t : TypeRegistry} (h : WellFormed t) {element : OperandType}
    {id : Nat} (hid : t.arrayOf? element = some id) :
    ∃ a, t.arrayClass id = .ok a ∧ a ∈ t.arrays ∧ a.element = element ∧ a.id = id := by
  obtain ⟨a, ha, rfl⟩ := Option.map_eq_some_iff.mp hid
  have hmem := List.mem_of_find?_eq_some ha
  have helement : a.element = element := by simpa using List.find?_some ha
  exact ⟨a, h.arrayClass_of_mem hmem, hmem, helement, rfl⟩

theorem lookup_of_mem {l : List (Nat × TypeDef)} {index : Nat} {d : TypeDef}
    (hnodup : (l.map Prod.fst).Nodup) (hmem : (index, d) ∈ l) : l.lookup index = some d := by
  obtain ⟨before, after, rfl⟩ := List.append_of_mem hmem
  refine List.lookup_eq_some_iff.mpr ⟨before, after, rfl, fun p hp => ?_⟩
  rw [List.map_append, List.nodup_append] at hnodup
  have hne := hnodup.2.2 p.1 (List.mem_map_of_mem hp) index (by simp)
  simpa using hne.symm

theorem WellFormed.typeAt? {t : TypeRegistry} (h : WellFormed t) {a : ArrayClass}
    (ha : a ∈ t.arrays) {index : Nat} {d : TypeDef} (hd : (index, d) ∈ classDefs a) :
    t.typeAt? index = some d :=
  lookup_of_mem (h.indices.nodup_iff.mpr List.nodup_range)
    (List.mem_append_right _ (List.mem_flatMap.mpr ⟨a, ha, hd⟩))

theorem WellFormed.typeAt?_wrapper {t : TypeRegistry} (h : WellFormed t) {a : ArrayClass}
    (ha : a ∈ t.arrays) {native : NativeArray} (hn : a.native? = some native) :
    t.typeAt? a.typeIndex =
      some (.wrapper [.value .i32, .value .i32, .ref native.typeIndex]) :=
  h.typeAt? ha (by simp [classDefs, hn])

theorem WellFormed.typeAt?_buffer {t : TypeRegistry} (h : WellFormed t) {a : ArrayClass}
    (ha : a ∈ t.arrays) {native : NativeArray} (hn : a.native? = some native) :
    t.typeAt? native.typeIndex = some (.buffer native.storage) :=
  h.typeAt? ha (by simp [classDefs, hn])

end WasmBackend.TypeRegistry
