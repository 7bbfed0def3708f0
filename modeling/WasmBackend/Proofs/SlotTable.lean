import Mathlib.Data.List.Basic
import WasmBackend.SlotTable

/-! # Locals of a function

Locals are only ever added to a slot table, so a local keeps its type (`Grows.typeOf`). In every
table that grows from an empty one, a local that was given to a slot and a type has that type
(`Recorded`); hence the local of a resolved slot has the stack type it was asked for with
(`typeOf_resolve`). -/

namespace WasmBackend.SlotTable

/-- The table after more locals have been asked for. -/
inductive Grows (t : SlotTable) : SlotTable → Prop
  | refl : Grows t t
  | addParam {t' t'' : SlotTable} {slot index : Nat} {ty : OperandType} :
      Grows t t' → t'.addParam slot ty = (.ok index, t'') → Grows t t''
  | resolve {t' : SlotTable} (slot : Nat) (ty : OperandType) :
      Grows t t' → Grows t (t'.resolve slot ty).2
  | addTemporary {t' : SlotTable} (ty : OperandType) :
      Grows t t' → Grows t (t'.addTemporary ty).2

theorem addParam_eq_ok {t t' : SlotTable} {slot index : Nat} {ty : OperandType}
    (h : t.addParam slot ty = (.ok index, t')) :
    t' = { t.allocate slot ty.widened with paramCount := t.paramCount + 1 } := by
  unfold addParam at h
  split_ifs at h
  · cases h
    rfl
  · cases h

theorem isPrefix_types_resolve (t : SlotTable) (slot : Nat) (ty : OperandType) :
    t.types <+: (t.resolve slot ty).2.types := by
  unfold SlotTable.resolve
  split
  · exact List.prefix_rfl
  · exact List.prefix_append _ _

theorem Grows.isPrefix_types {t t' : SlotTable} (h : Grows t t') : t.types <+: t'.types := by
  induction h with
  | refl => exact List.prefix_rfl
  | addParam _ hadd ih =>
    rw [addParam_eq_ok hadd]
    exact ih.trans (List.prefix_append _ _)
  | resolve slot ty _ ih => exact ih.trans (isPrefix_types_resolve _ slot ty)
  | addTemporary ty _ ih => exact ih.trans (List.prefix_append _ _)

theorem typeOf_eq_ok {t : SlotTable} {index : Nat} {ty : OperandType} :
    t.typeOf index = .ok ty ↔ t.types[index]? = some ty := by
  unfold typeOf
  split
  · next h => simp [h]
  · next h => simp [h]

theorem Grows.typeOf {t t' : SlotTable} (h : Grows t t') {index : Nat} {ty : OperandType}
    (hty : t.typeOf index = .ok ty) : t'.typeOf index = .ok ty := by
  rw [typeOf_eq_ok] at hty ⊢
  have hindex : index < t.types.length := (List.getElem?_eq_some_iff.mp hty).1
  rw [← hty, List.prefix_iff_getElem?.mp h.isPrefix_types index hindex,
    List.getElem?_eq_getElem hindex]

/-- A local that belongs to a slot and a type has that type. -/
def Recorded (t : SlotTable) : Prop :=
  ∀ slot ty index, ((slot, ty), index) ∈ t.slots → t.typeOf index = .ok ty

theorem typeOf_allocate (t : SlotTable) (slot : Nat) (ty : OperandType) :
    (t.allocate slot ty).typeOf t.size = .ok ty := by
  rw [typeOf_eq_ok]
  exact List.getElem?_concat_length ..

theorem typeOf_append {t t' : SlotTable} {more : List OperandType}
    (ht : t'.types = t.types ++ more) {index : Nat} {ty : OperandType}
    (hty : t.typeOf index = .ok ty) : t'.typeOf index = .ok ty := by
  rw [typeOf_eq_ok] at hty ⊢
  rw [ht, List.getElem?_append_left (List.getElem?_eq_some_iff.mp hty).1]
  exact hty

theorem Recorded.allocate {t : SlotTable} (h : Recorded t) (slot : Nat) (ty : OperandType) :
    Recorded (t.allocate slot ty) := by
  intro slot' ty' index hmem
  rcases List.mem_cons.mp hmem with heq | hold
  · cases heq
    exact typeOf_allocate t slot ty
  · exact typeOf_append rfl (h slot' ty' index hold)

theorem Recorded.resolve {t : SlotTable} (h : Recorded t) (slot : Nat) (ty : OperandType) :
    Recorded (t.resolve slot ty).2 := by
  unfold SlotTable.resolve
  split
  · exact h
  · exact h.allocate slot ty.widened

theorem recorded_of_grows {t : SlotTable} (h : Grows {} t) : Recorded t := by
  induction h with
  | refl => simp [Recorded]
  | addParam _ hadd ih =>
    rw [addParam_eq_ok hadd]
    exact ih.allocate _ _
  | resolve slot ty _ ih => exact ih.resolve slot ty
  | addTemporary ty _ ih => exact fun slot ty' index hmem => typeOf_append rfl (ih _ _ _ hmem)

theorem mem_of_find? {t : SlotTable} {slot index : Nat} {ty : OperandType}
    (h : t.find? slot ty = some index) : ((slot, ty), index) ∈ t.slots := by
  obtain ⟨before, after, hslots, -⟩ := List.lookup_eq_some_iff.mp h
  rw [hslots]
  simp

/-- **The local of a resolved slot has the stack type it was asked for with.** -/
theorem typeOf_resolve {t t' : SlotTable} (h : Grows {} t) {slot index : Nat} {ty : OperandType}
    (hres : t.resolve slot ty = (index, t')) : t'.typeOf index = .ok ty.widened := by
  unfold SlotTable.resolve at hres
  split at hres
  · next found hfind =>
    cases hres
    exact recorded_of_grows h slot ty.widened index (mem_of_find? hfind)
  · cases hres
    exact typeOf_allocate t slot ty.widened

end WasmBackend.SlotTable
