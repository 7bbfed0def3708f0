import WasmBackend.Proofs.EmissionTyping
import WasmBackend.Proofs.HelperSelection

/-! # Host helpers and the contracts of array operations

Without native types every array operation calls a helper of the host. The helper takes an array as a
host reference and an element in its host type, and the contract of the operation has the lowered types
of the class and of its elements. The two are compared in target types: they agree for every class and
every operation, unless the operation moves an element of a generic reference type. Such an element
keeps its type when it is lowered, while the helper has a host reference in its place
(`hostHelper_signature_iff`). -/

namespace WasmBackend.Typing

open ArrayProfile

/-- The operation takes or gives an element. -/
def movesElement (op : ArrayOp) : Bool := op.isGet || op = .set

theorem arrayType_inj {op : ArrayOp} {reference element element' : WasmType} :
    arrayType op reference element = arrayType op reference element' ↔
      (movesElement op = true → element = element') := by
  cases op <;> simp [arrayType, movesElement, ArrayOp.isGet]

theorem HasSignature.unique {t : TypeRegistry} {name : FunctionName} {sig sig' : Signature}
    (h : HasSignature t name sig) (h' : HasSignature t name sig') : sig = sig' := by
  obtain ⟨result, hparams, hresult, hresults⟩ := h
  obtain ⟨result', hparams', hresult', hresults'⟩ := h'
  cases hresult.symm.trans hresult'
  have heq : sig.params = sig'.params := Except.ok.inj (hparams.symm.trans hparams')
  have heq' : sig.results = sig'.results := hresults.trans hresults'.symm
  cases sig
  cases sig'
  rw [Signature.mk.injEq]
  exact ⟨heq, heq'⟩

/-- A generic reference is the only element whose lowered type is not its host type. -/
theorem lower_eq_hostType_iff {t : TypeRegistry} (hgc : t.useGc = false) {element : OperandType}
    {w : WasmType} (hw : t.lower element = .ok w) :
    w = .value element.hostType ↔ isGeneric element = false := by
  refine ⟨fun heq => ?_, lower_eq_hostType hgc hw⟩
  rw [Bool.eq_false_iff]
  intro hgeneric
  simp only [isGeneric, Bool.or_eq_true, decide_eq_true_eq] at hgeneric
  rcases hgeneric with (rfl | rfl) | rfl <;>
  · cases hw
    cases heq

/-- **Host helpers and contracts.** For every array class of a module without native types and every
operation there are a helper and a contract. The helper has arrays as host references and elements in
their host type, and this is the contract exactly if the operation moves no element or the elements are
not generic references. -/
theorem hostHelper_signature_iff {t : TypeRegistry} (htypes : (TypeRegistry.new false).Grows t)
    {a : ArrayClass} (ha : a ∈ t.arrays) (op : ArrayOp) (options : Options) (slots : SlotTable)
    (position : CodePosition) :
    ∃ name body sig, hostHelper op a t options = .ok (name, body) ∧
      contract t slots ⟨position, .array op a.element a.id⟩ = .ok sig ∧
      HasSignature t name (arrayType op (.value .externRef) (.value a.element.hostType)) ∧
      (HasSignature t name sig ↔ (movesElement op = true → isGeneric a.element = false)) := by
  have ht := TypeRegistry.wellFormed_of_grows htypes
  have hgc : t.useGc = false := htypes.extends.useGc
  have hw := ht.elementLocal a ha
  have hclass := ht.arrayClass_of_mem ha
  have href : t.classReference a.typeIndex = .value .externRef := by
    simp [TypeRegistry.classReference, hgc]
  obtain ⟨name, body, hhelper, hsig⟩ := exists_hostHelper hclass hw op options
  have hcontract := contract_array (lower_operandType hclass) hw slots position op
  rw [href, ite_self] at hsig
  rw [href] at hcontract
  refine ⟨name, body, _, hhelper, hcontract, hsig, ?_⟩
  have hsame : HasSignature t name (arrayType op (.value .externRef) a.elementLocal) ↔
      arrayType op (.value .externRef) a.elementLocal =
        arrayType op (.value .externRef) (.value a.element.hostType) :=
    ⟨fun h => h.unique hsig, fun h => h ▸ hsig⟩
  rw [hsame, arrayType_inj, lower_eq_hostType_iff hgc hw]

/-- Arrays of strings and arrays of functions, without native types. -/
def hostArrays : TypeRegistry :=
  TypeRegistry.run (.new false) [.internArray TypeRegistry.stringType, .internArray (.value .funcRef)]

/-- The helper that writes an element of an array of strings has the contract of the operation. -/
theorem hostHelper_signature_strings :
    (TypeRegistry.new false).Grows hostArrays ∧ ∃ a name body sig,
      a ∈ hostArrays.arrays ∧ a.element = TypeRegistry.stringType ∧
      hostHelper .set a hostArrays {} = .ok (name, body) ∧
      contract hostArrays {} ⟨.unknown, .array .set a.element a.id⟩ = .ok sig ∧
      HasSignature hostArrays name sig := by
  have hgrows : (TypeRegistry.new false).Grows hostArrays := TypeRegistry.Grows.run .refl _
  have hstrings : (hostArrays.arrayClass 0).map ArrayClass.element = .ok TypeRegistry.stringType := by
    decide +kernel
  obtain ⟨a, ha, helement⟩ := map_eq_ok.mp hstrings
  have hmem := List.mem_of_getElem? (TypeRegistry.arrayClass_eq_ok.mp ha)
  obtain ⟨name, body, sig, hhelper, hcontract, -, hiff⟩ :=
    hostHelper_signature_iff hgrows hmem .set {} {} .unknown
  refine ⟨hgrows, a, name, body, sig, hmem, helement, hhelper, hcontract, hiff.mpr fun _ => ?_⟩
  rw [helement]
  rfl

/-- The helper that reads an array of functions gives a host reference where the contract has a
function. -/
theorem hostHelper_signature_functions :
    (TypeRegistry.new false).Grows hostArrays ∧
      ((hostArrays.arrayClass 1).bind fun a => hostHelper .get a hostArrays {}).bind
        (fun helper => hostArrays.lowerResult helper.1.result) = .ok (some (.value .externRef)) ∧
      contract hostArrays {} ⟨.unknown, .array .get (.value .funcRef) 1⟩ =
        .ok ⟨[.value .externRef, .value .i32], [.value .funcRef]⟩ :=
  ⟨TypeRegistry.Grows.run .refl _, by decide +kernel⟩

end WasmBackend.Typing
