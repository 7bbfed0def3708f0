import WasmBackend.ArrayProfile
import WasmBackend.Proofs.TypeRegistry

/-! # Names of classes

Struct classes are told apart by their names and array classes by their element types. An array class
is named after the descriptor of its elements, and descriptors do not tell all element types apart:
every built-in reference type has the one of `java/lang/Object`. The name of an array class together
with the name of its elements in helpers (`ArrayProfile.elementName`) determines the class, unless
the elements are arrays themselves (`Named.eq_or_nested`). -/

namespace WasmBackend

theorem ValueType.name_injective : Function.Injective ValueType.name := by
  intro ty ty' h
  have hname := ValueType.ofName?_name ty
  rw [h, ValueType.ofName?_name] at hname
  exact (Option.some.inj hname).symm

/-- Values of the type are arrays. -/
def OperandType.isArray : OperandType → Bool
  | .array _ => true
  | _ => false

namespace TypeRegistry

theorem Extends.descriptor {t t' : TypeRegistry} (h : Extends t t') {ty : OperandType} {d : String}
    (hd : t.descriptor ty = .ok d) : t'.descriptor ty = .ok d := by
  cases ty with
  | value ty => exact hd
  | struct id =>
    obtain ⟨s, hs, rfl⟩ := map_eq_ok.mp hd
    exact map_eq_ok.mpr ⟨s, h.structClass hs, rfl⟩
  | array id =>
    obtain ⟨a, ha, rfl⟩ := map_eq_ok.mp hd
    exact map_eq_ok.mpr ⟨a, h.arrayClass ha, rfl⟩

/-! ### The invariant -/

/-- Classes are told apart by what they are registered for, and arrays are named after their
elements. -/
structure Named (t : TypeRegistry) : Prop where
  structs : (t.structs.map StructClass.name).Nodup
  elements : (t.arrays.map ArrayClass.element).Nodup
  arrays : ∀ a ∈ t.arrays, ∃ d, t.descriptor a.element = .ok d ∧ a.name = "[" ++ d

theorem Named.registerStruct {t : TypeRegistry} (h : Named t) (name : String)
    (fields : List OperandType) : Named (t.registerStruct name fields).2 := by
  have hext := extends_registerStruct t name fields
  unfold TypeRegistry.registerStruct at hext ⊢
  split at hext
  · exact h
  · next hnew =>
    refine ⟨?_, h.elements, fun a ha => ?_⟩
    · have hfresh : name ∉ t.structs.map StructClass.name := by
        simpa [structByName?] using hnew
      simp only [List.map_append, List.map_cons, List.map_nil]
      exact List.nodup_append_comm.mp (List.nodup_cons.mpr ⟨hfresh, h.structs⟩)
    · obtain ⟨d, hd, hname⟩ := h.arrays a ha
      exact ⟨d, hext.descriptor hd, hname⟩

theorem Named.addArray {t : TypeRegistry} (h : Named t) {element : OperandType} {d : String}
    (hnew : t.arrayOf? element = none) (hd : t.descriptor element = .ok d)
    (elementLocal storage : WasmType) :
    Named (t.addArray element ("[" ++ d) elementLocal storage) := by
  have hext := extends_addArray t element ("[" ++ d) elementLocal storage
  refine ⟨h.structs, ?_, fun a ha => ?_⟩
  · have hfresh : element ∉ t.arrays.map ArrayClass.element := by
      simpa [arrayOf?] using hnew
    simp only [TypeRegistry.addArray, List.map_append, List.map_cons, List.map_nil]
    exact List.nodup_append_comm.mp (List.nodup_cons.mpr ⟨hfresh, h.elements⟩)
  · rcases List.mem_append.mp ha with hold | hadded
    · obtain ⟨d', hd', hname⟩ := h.arrays a hold
      exact ⟨d', hext.descriptor hd', hname⟩
    · cases List.mem_singleton.mp hadded
      exact ⟨d, hext.descriptor hd, rfl⟩

/-- **Every registry names its classes apart.** -/
theorem named_of_grows {useGc : Bool} {t : TypeRegistry} (h : Grows (.new useGc) t) : Named t := by
  induction h with
  | refl =>
    have hempty : Named ⟨useGc, [], [], 0, 0⟩ := ⟨List.nodup_nil, List.nodup_nil, by simp⟩
    exact hempty.registerStruct stringClassName [.i32, .i32]
  | registerStruct name fields _ ih => exact ih.registerStruct name fields
  | internArray _ h ih =>
    rcases internArray_eq_ok h with ⟨-, rfl⟩ | ⟨hnew, -, d, elementLocal, storage, hd, -, -, rfl⟩
    · exact ih
    · exact ih.addArray hnew hd elementLocal storage

/-! ### What names determine -/

variable {t : TypeRegistry}

theorem Named.array_eq (h : Named t) {a a' : ArrayClass} (ha : a ∈ t.arrays) (ha' : a' ∈ t.arrays)
    (helement : a.element = a'.element) : a = a' :=
  List.inj_on_of_nodup_map h.elements ha ha' helement

theorem Named.struct_eq (h : Named t) {id id' : Nat} {s s' : StructClass}
    (hs : t.structClass id = .ok s) (hs' : t.structClass id' = .ok s') (hname : s.name = s'.name) :
    id = id' := by
  rw [structClass_eq_ok] at hs hs'
  have hid : (t.structs.map StructClass.name)[id]? = some s.name := by simp [hs]
  have hid' : (t.structs.map StructClass.name)[id']? = some s.name := by simp [hs', hname]
  have hlt := (List.getElem?_eq_some_iff.mp hid).1
  exact (List.getElem?_inj hlt h.structs).mp (hid.trans hid'.symm)

theorem descriptor_struct_eq_ok {id : Nat} {d : String} :
    t.descriptor (.struct id) = .ok d ↔
      ∃ s, t.structClass id = .ok s ∧ "L" ++ s.name ++ ";" = d :=
  map_eq_ok

/-- Descriptors of arrays, and only those, begin with a bracket. -/
theorem Named.head_descriptor (h : Named t) {ty : OperandType} {d : String}
    (hd : t.descriptor ty = .ok d) :
    d.toList.head? = some '[' ↔ ty.isArray = true := by
  cases ty with
  | value ty =>
    cases hd
    cases ty <;> simp [valueDescriptor, OperandType.isArray]
  | struct id =>
    obtain ⟨s, -, rfl⟩ := descriptor_struct_eq_ok.mp hd
    simp [OperandType.isArray]
  | array id =>
    obtain ⟨a, ha, rfl⟩ := map_eq_ok.mp hd
    obtain ⟨d', -, hname⟩ := h.arrays a (List.mem_of_getElem? (arrayClass_eq_ok.mp ha))
    simp [hname, OperandType.isArray]

/-- A struct class is not taken for a built-in type: where the descriptors agree, the names of the
elements do not. -/
theorem hostIdentifier_ne_name {ty : ValueType} {name : String}
    (h : valueDescriptor ty = "L" ++ name ++ ";") : ArrayProfile.hostIdentifier name ≠ ty.name := by
  have hobject : "Ljava/lang/Object;" = "L" ++ "java/lang/Object" ++ ";" := by decide +kernel
  cases ty with
  | funcRef | externRef | anyRef | eqRef =>
    have hname : "java/lang/Object" = name := by
      rw [valueDescriptor, hobject, String.append_left_inj, String.append_right_inj] at h
      exact h
    rw [← hname]
    decide +kernel
  | _ =>
    have hhead := congrArg (fun s => s.toList.head?) h
    simp [valueDescriptor] at hhead

theorem elementName_value {a : ArrayClass} {ty : ValueType} (ha : a.element = .value ty) :
    ArrayProfile.elementName a t = .ok ty.name := by
  simp only [ArrayProfile.elementName, ha]

theorem elementName_struct {a : ArrayClass} {id : Nat} {s : StructClass}
    (ha : a.element = .struct id) (hs : t.structClass id = .ok s) :
    ArrayProfile.elementName a t = .ok (ArrayProfile.hostIdentifier s.name) := by
  simp only [ArrayProfile.elementName, ha, typeName, hs, Except.map]

theorem elementName_ne {a a' : ArrayClass} {ty : ValueType} {id : Nat} {d : String}
    (ha : a.element = .value ty) (ha' : a'.element = .struct id)
    (hd : t.descriptor a.element = .ok d) (hd' : t.descriptor a'.element = .ok d) :
    ArrayProfile.elementName a t ≠ ArrayProfile.elementName a' t := by
  rw [ha] at hd
  rw [ha'] at hd'
  obtain ⟨s, hs, hsd⟩ := descriptor_struct_eq_ok.mp hd'
  have hty : valueDescriptor ty = "L" ++ s.name ++ ";" := (Except.ok.inj hd).trans hsd.symm
  rw [elementName_value ha, elementName_struct ha' hs]
  intro hname
  exact hostIdentifier_ne_name hty (Except.ok.inj hname).symm

theorem Named.element_eq (h : Named t) {a a' : ArrayClass} (ha : a.element.isArray = false)
    (ha' : a'.element.isArray = false) {d : String} (hd : t.descriptor a.element = .ok d)
    (hd' : t.descriptor a'.element = .ok d)
    (helement : ArrayProfile.elementName a t = ArrayProfile.elementName a' t) :
    a.element = a'.element := by
  rcases he : a.element with ty | id | id <;> rcases he' : a'.element with ty' | id' | id'
  case value.value =>
    rw [elementName_value he, elementName_value he'] at helement
    rw [ValueType.name_injective (Except.ok.inj helement)]
  case value.struct => exact absurd helement (elementName_ne he he' hd hd')
  case struct.value => exact absurd helement.symm (elementName_ne he' he hd' hd)
  case struct.struct =>
    rw [he] at hd
    rw [he'] at hd'
    obtain ⟨s, hs, hsd⟩ := descriptor_struct_eq_ok.mp hd
    obtain ⟨s', hs', hsd'⟩ := descriptor_struct_eq_ok.mp hd'
    rw [← hsd', String.append_left_inj, String.append_right_inj] at hsd
    rw [h.struct_eq hs hs' hsd]
  all_goals simp [he, he', OperandType.isArray] at ha ha'

/-- **Two array classes with the same name and the same name of their elements** are the same, unless
both hold arrays. -/
theorem Named.eq_or_nested (h : Named t) {a a' : ArrayClass} (ha : a ∈ t.arrays)
    (ha' : a' ∈ t.arrays) (hname : a.name = a'.name)
    (helement : ArrayProfile.elementName a t = ArrayProfile.elementName a' t) :
    a = a' ∨ (a.element.isArray = true ∧ a'.element.isArray = true) := by
  obtain ⟨d, hd, had⟩ := h.arrays a ha
  obtain ⟨d', hd', had'⟩ := h.arrays a' ha'
  obtain rfl : d = d' := by
    rwa [had, had', String.append_right_inj] at hname
  have hsame : a.element.isArray = a'.element.isArray := by
    rw [Bool.eq_iff_iff, ← h.head_descriptor hd, ← h.head_descriptor hd']
  by_cases harray : a.element.isArray = true
  · exact .inr ⟨harray, hsame ▸ harray⟩
  · rw [Bool.not_eq_true] at harray
    exact .inl (h.array_eq ha ha' (h.element_eq harray (hsame ▸ harray) hd hd' helement))

theorem Named.elementName_array (h : Named t) {a : ArrayClass} (ha : a ∈ t.arrays)
    (harray : a.element.isArray = true) : ∃ d, a.name = "[" ++ d ∧
      ArrayProfile.elementName a t = .ok (ArrayProfile.hostIdentifier d) := by
  obtain ⟨d, hd, hname⟩ := h.arrays a ha
  refine ⟨d, hname, ?_⟩
  rcases he : a.element with ty | id | id
  case array =>
    rw [he] at hd
    have htype : t.typeName (.array id) = .ok d := hd
    simp only [ArrayProfile.elementName, he, htype, Except.map]
  all_goals simp [he, OperandType.isArray] at harray

theorem bracket_notMem_elementName {a : ArrayClass} {element : String}
    (h : ArrayProfile.elementName a t = .ok element) : '[' ∉ element.toList := by
  unfold ArrayProfile.elementName at h
  split at h
  · next ty _ =>
    cases h
    cases ty <;> simp [ValueType.name]
  · obtain ⟨name, -, rfl⟩ := map_eq_ok.mp h
    simp only [ArrayProfile.hostIdentifier, String.toList_ofList, List.mem_map, not_exists, not_and]
    intro c _
    split
    · decide
    · next hc => exact fun heq => hc (.inl heq)

end TypeRegistry

end WasmBackend
