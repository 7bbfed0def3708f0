import Mathlib.Algebra.Order.BigOperators.Group.List
import WasmBackend.Proofs.EmittedLocals
import WasmBackend.Proofs.SlotRuns

/-! # Slots of parameters

A parameter has a slot of the source and a local of the target. The two numbers drift apart with
every parameter that takes two slots (`paramSlot`), and a slot can be used again with other types.
Still the table of a function finds a parameter by its slot and stack type, and gives everything
else a local behind the parameters (`Addresses`). Parameters establish this, every resolved slot
keeps it, and so it shows in the code of a function that compiles (`slot_accesses`). -/

namespace WasmBackend

namespace SlotTable

/-! ### Where parameters are -/

/-- The slot of the `k`-th parameter. -/
def paramSlot (params : List OperandType) (k : Nat) : Nat :=
  ((params.take k).map fun ty => if ty = .value .i64 ∨ ty = .value .f64 then 2 else 1).sum

/-- The slot and the stack type are those of the `k`-th parameter. -/
def IsParam (params : List OperandType) (k slot : Nat) (ty : OperandType) : Prop :=
  ∃ p, params[k]? = some p ∧ slot = paramSlot params k ∧ ty.widened = p.widened

theorem slotCount_eq (ty : OperandType) :
    ty.slotCount = if ty = .value .i64 ∨ ty = .value .f64 then 2 else 1 := by
  cases ty with
  | value ty => cases ty <;> rfl
  | struct id => rfl
  | array id => rfl

theorem paramSlot_concat_of_le {params : List OperandType} {k : Nat} (h : k ≤ params.length)
    (ty : OperandType) : paramSlot (params ++ [ty]) k = paramSlot params k := by
  rw [paramSlot, List.take_append_of_le_length h, paramSlot]

theorem paramSlot_concat_length (params : List OperandType) (ty : OperandType) :
    paramSlot (params ++ [ty]) (params ++ [ty]).length =
      paramSlot params params.length + ty.slotCount := by
  rw [paramSlot, List.take_length, List.map_append, List.sum_append, paramSlot, List.take_length,
    slotCount_eq, List.map_singleton, List.sum_singleton]

theorem paramSlot_lt {params : List OperandType} {k : Nat} (h : k < params.length) :
    paramSlot params k < paramSlot params params.length := by
  unfold paramSlot
  rw [List.take_length]
  nth_rewrite 2 [← List.take_append_drop k params]
  rw [List.map_append, List.sum_append]
  have hone := List.length_le_sum_of_one_le ((params.drop k).map fun ty =>
    if ty = .value .i64 ∨ ty = .value .f64 then 2 else 1) (by
      intro n hn
      obtain ⟨ty, -, rfl⟩ := List.mem_map.mp hn
      split <;> decide)
  rw [List.length_map, List.length_drop] at hone
  omega

/-! ### Tables that find the parameters -/

/-- The table finds the parameters by their slots and stack types, and nothing else among them. -/
structure Addresses (params : List OperandType) (t : SlotTable) : Prop where
  length_le : params.length ≤ t.size
  find?_lt : ∀ slot ty index, t.find? slot ty = some index → index < t.size
  find?_param : ∀ k slot ty, IsParam params k slot ty → t.find? slot ty.widened = some k
  isParam_of_find? : ∀ slot ty index, t.find? slot ty.widened = some index →
    index < params.length → IsParam params index slot ty

theorem find?_allocate (t : SlotTable) (slot : Nat) (ty : OperandType) (slot' : Nat)
    (ty' : OperandType) :
    (t.allocate slot ty.widened).find? slot' ty' =
      if slot = slot' ∧ ty.widened = ty' then some t.size else t.find? slot' ty' := by
  refine Eq.trans (find?_extended t (.resolve slot ty) ty.widened slot' ty') ?_
  simp only [Call.key?, Option.some.injEq, Prod.mk.injEq]

theorem find?_lt_allocate {t : SlotTable}
    (h : ∀ slot ty index, t.find? slot ty = some index → index < t.size) (slot : Nat)
    (ty : OperandType) (slot' : Nat) (ty' : OperandType) (index : Nat)
    (hfind : (t.allocate slot ty.widened).find? slot' ty' = some index) :
    index < (t.allocate slot ty.widened).size := by
  rw [find?_allocate] at hfind
  rw [size_allocate]
  split_ifs at hfind
  · cases hfind
    omega
  · have hold := h slot' ty' index hfind
    omega

theorem addresses_empty : Addresses [] {} := by
  refine ⟨Nat.le_refl _, ?_, ?_, ?_⟩
  · intro slot ty index hfind
    cases hfind
  · rintro k slot ty ⟨p, hp, -⟩
    cases hp
  · intro slot ty index hfind
    cases hfind

variable {params : List OperandType} {t : SlotTable}

theorem Addresses.concat (h : Addresses params t) (hsize : t.size = params.length)
    (ty : OperandType) :
    Addresses (params ++ [ty]) (t.allocate (paramSlot params params.length) ty.widened) := by
  have hlast : paramSlot (params ++ [ty]) params.length = paramSlot params params.length :=
    paramSlot_concat_of_le (Nat.le_refl _) ty
  refine ⟨?_, find?_lt_allocate h.find?_lt _ ty, ?_, ?_⟩
  · rw [size_allocate, List.length_append, List.length_singleton]
    omega
  · rintro k slot ty' ⟨p, hp, rfl, hty⟩
    rw [find?_allocate]
    rcases getElem?_concat_eq_some.mp hp with hold | ⟨rfl, rfl⟩
    · -- the slots of earlier parameters are smaller
      have hk : k < params.length := (List.getElem?_eq_some_iff.mp hold).1
      have hslot := paramSlot_concat_of_le (Nat.le_of_lt hk) ty
      have hlt := paramSlot_lt hk
      rw [if_neg (by omega), hslot]
      exact h.find?_param k _ ty' ⟨p, hold, rfl, hty⟩
    · rw [if_pos ⟨hlast.symm, hty.symm⟩, hsize]
  · intro slot ty' index hfind hindex
    rw [find?_allocate] at hfind
    split_ifs at hfind with hkey
    · cases hfind
      refine ⟨ty, ?_, ?_, hkey.2.symm⟩
      · rw [hsize, List.getElem?_concat_length]
      · rw [hsize, hlast, hkey.1]
    · have hlt := h.find?_lt _ _ _ hfind
      rw [hsize] at hlt
      obtain ⟨p, hp, hslot, hty⟩ := h.isParam_of_find? slot ty' index hfind hlt
      refine ⟨p, ?_, ?_, hty⟩
      · rw [List.getElem?_append_left hlt, hp]
      · rw [paramSlot_concat_of_le (Nat.le_of_lt hlt), hslot]

theorem Addresses.addParam {ty : OperandType} {index : Nat} {t' : SlotTable}
    (h : Addresses params t) (hsize : t.size = params.length)
    (hadd : t.addParam (paramSlot params params.length) ty = (.ok index, t')) :
    Addresses (params ++ [ty]) t' ∧ t'.size = (params ++ [ty]).length := by
  obtain rfl := addParam_eq_ok hadd
  have hconcat := h.concat hsize ty
  refine ⟨⟨hconcat.length_le, hconcat.find?_lt, hconcat.find?_param, hconcat.isParam_of_find?⟩, ?_⟩
  show (t.allocate (paramSlot params params.length) ty.widened).size = _
  rw [size_allocate, hsize, List.length_append, List.length_singleton]

theorem Addresses.addParamsFrom {rest : List OperandType} {t' : SlotTable} (h : Addresses params t)
    (hsize : t.size = params.length)
    (hadd : t.addParamsFrom (paramSlot params params.length) rest = .ok t') :
    Addresses (params ++ rest) t' := by
  induction rest generalizing params t with
  | nil =>
    cases hadd
    rwa [List.append_nil]
  | cons ty rest ih =>
    unfold SlotTable.addParamsFrom at hadd
    split at hadd
    · next index next hnext =>
      obtain ⟨haddressed, hlength⟩ := h.addParam hsize hnext
      rw [← paramSlot_concat_length] at hadd
      rw [List.append_cons]
      exact ih haddressed hlength hadd
    · cases hadd

theorem addresses_ofParams (h : ofParams params = .ok t) : Addresses params t :=
  addresses_empty.addParamsFrom rfl h

theorem Addresses.resolve_fst (h : Addresses params t) (slot : Nat) (ty : OperandType) :
    (∀ k, IsParam params k slot ty → (t.resolve slot ty).1 = k) ∧
      ((∀ k, ¬ IsParam params k slot ty) → params.length ≤ (t.resolve slot ty).1) := by
  unfold SlotTable.resolve
  rcases hfind : t.find? slot ty.widened with _ | index
  · refine ⟨fun k hparam => ?_, fun _ => h.length_le⟩
    cases hfind.symm.trans (h.find?_param k slot ty hparam)
  · refine ⟨fun k hparam => ?_, fun hother => ?_⟩
    · cases hfind.symm.trans (h.find?_param k slot ty hparam)
      rfl
    · by_contra hlt
      exact hother index (h.isParam_of_find? slot ty index hfind (Nat.lt_of_not_le hlt))

/-- Resolving a slot keeps the parameters where they are. -/
theorem Addresses.resolve_snd (h : Addresses params t) (slot : Nat) (ty : OperandType) :
    Addresses params (t.resolve slot ty).2 := by
  unfold SlotTable.resolve
  rcases hfind : t.find? slot ty.widened with _ | index
  · refine ⟨?_, find?_lt_allocate h.find?_lt slot ty, ?_, ?_⟩
    · have hle := h.length_le
      rw [size_allocate]
      omega
    · intro k slot' ty' hparam
      have hold := h.find?_param k slot' ty' hparam
      have hother : ¬ (slot = slot' ∧ ty.widened = ty'.widened) := by
        rintro ⟨rfl, hty⟩
        rw [← hty, hfind] at hold
        cases hold
      rw [find?_allocate, if_neg hother, hold]
    · intro slot' ty' index hfind' hindex
      have hle := h.length_le
      rw [find?_allocate] at hfind'
      split_ifs at hfind'
      · cases hfind'
        omega
      · exact h.isParam_of_find? slot' ty' index hfind' hindex
  · exact h

end SlotTable

/-! ### Slot accesses in the code of a function -/

open SlotTable

/-- What is written for an instruction that has just been built, if it accesses a slot: an access to
the parameter whose slot and stack type it names, or to a local behind all parameters. -/
def Instruction.AddressedIn (params : List OperandType) (i : Instruction) (piece : List BodyOp) :
    Prop :=
  ∀ op slot ty position, i = .ofSlot op slot ty position →
    ∃ index, piece = [.op (op.code index)] ∧ (∀ k, IsParam params k slot ty → index = k) ∧
      ((∀ k, ¬ IsParam params k slot ty) → params.length ≤ index)

/-- The piece of the code of `f` that an instruction gives, once its slot is resolved. -/
def ModuleCompiler.Gives (c : ModuleCompiler) (f : FunctionDraft) (i : Instruction)
    (piece : List BodyOp) : Prop :=
  ∃ slots r r' code, (i.resolve slots).1.code c.options c.types r = (.ok code, r') ∧
    piece = code.map (Emission.place f.scratchIndex)

namespace Instruction

variable {params : List OperandType}

theorem addresses_resolve {t : SlotTable} (h : Addresses params t) (i : Instruction) :
    Addresses params (i.resolve t).2 := by
  unfold resolve
  split
  · exact h.resolve_snd _ _
  · exact h

theorem forall₂_resolveAll {t : SlotTable} (h : Addresses params t) (body : List Instruction) :
    List.Forall₂ (fun i i' => ∃ slots, Addresses params slots ∧ i' = (i.resolve slots).1) body
      (resolveAll body t).1 := by
  induction body generalizing t with
  | nil => exact .nil
  | cons i rest ih => exact .cons ⟨t, h, rfl⟩ (ih (addresses_resolve h i))

theorem addressedIn_of_code {slots : SlotTable} (h : Addresses params slots) {i : Instruction}
    {options : Options} {types : TypeRegistry} {r r' : FunctionRegistry} {code : List Emission}
    (hcode : (i.resolve slots).1.code options types r = (.ok code, r'))
    (index : Nat × WasmType → Nat) : i.AddressedIn params (code.map (Emission.place index)) := by
  rintro op slot ty position rfl
  obtain ⟨hparam, hother⟩ := h.resolve_fst slot ty
  have haccess : ((ofSlot op slot ty position).resolve slots).1.access? =
      some (op, (slots.resolve slot ty).1) := rfl
  refine ⟨(slots.resolve slot ty).1, ?_, hparam, hother⟩
  rw [code_of_access? haccess hcode]
  rfl

end Instruction

namespace ModuleCompiler

variable {c : ModuleCompiler} {w : ModuleWriter} {code : FunctionCode}

/-- **Slots of parameters in a function that compiles.** Its code consists of what its instructions
give, one after the other. An access to the slot of a parameter with the parameter's stack type is
an access to that parameter; an access to any other slot, or with any other type, is one to a local
behind all parameters. -/
theorem slot_accesses {id : Nat} (h : (c.compile w code).result = .ok id) :
    ∃ f pieces, (c.compile w code).writer.completed = w.completed ++ [f] ∧
      f.params.length = code.name.params.length ∧ f.code = pieces.flatten ∧
      List.Forall₂ (fun i piece => c.Gives f i piece ∧ i.AddressedIn code.name.params piece)
        code.instructions pieces := by
  obtain ⟨s⟩ := nonempty_stages h
  have hcompleted : (c.compile w code).writer.completed = w.completed ++ [s.complete] := by
    rw [s.compile_eq]
    exact ModuleWriter.completed_endFunction s.ended
  obtain ⟨pieces, hcode, hpieces⟩ := exists_pieces s.written
  have hresolved := Instruction.forall₂_resolveAll (addresses_ofParams s.ofParams) code.instructions
  rw [s.resolveAll] at hresolved
  refine ⟨s.complete, pieces.map (List.map (Emission.place s.complete.scratchIndex)), hcompleted,
    length_lowerAll (lowered_of_draft s.drafted).1, ?_, ?_⟩
  · rw [FunctionDraft.code_eq_map_place, s.body_complete, hcode, List.map_flatten]
  · rw [List.forall₂_map_right_iff]
    refine forall₂_comp ?_ hresolved hpieces
    rintro i i' piece ⟨slots, haddresses, rfl⟩ ⟨r, r', hgenerated⟩
    exact ⟨⟨slots, r, r', piece, hgenerated, rfl⟩,
      Instruction.addressedIn_of_code haddresses hgenerated _⟩

/-- A function of a long, a byte and a double. Its byte is in slot `2`, its double in slot `3`. It
copies the byte to slot `1`, the upper half of the long, and the double to slot `2`. -/
def sharing : FunctionCode where
  name := { className := "Main", methodName := "pick", signature := "(JBD)I"
            params := [.value .i64, .value .i8, .value .f64], result := some .i32 }
  instructions := [.ofSlot .get 2 .i32 .unknown, .ofSlot .set 1 .i32 .unknown,
    .ofSlot .get 3 (.value .f64) .unknown, .ofSlot .set 2 (.value .f64) .unknown,
    .ofSlot .get 1 .i32 .unknown]

/-- Byte and double are read as parameters `1` and `2`, and the copies get locals of their own. -/
theorem slot_accesses_sharing :
    let compiled := (new {}).compile .newBinary sharing
    compiled.result = .ok 0 ∧ ∃ f pieces, compiled.writer.completed = [f] ∧
      f.params.length = 3 ∧ f.code.filterMap BodyOp.local? = [1, 3, 2, 4, 3] ∧
      f.code = pieces.flatten ∧
      List.Forall₂
        (fun i piece => (new {}).Gives f i piece ∧ i.AddressedIn sharing.name.params piece)
        sharing.instructions pieces := by
  intro compiled
  have hresult : compiled.result = .ok 0 := by decide +kernel
  have hlocals : compiled.writer.completed.map (fun f => f.code.filterMap BodyOp.local?) =
      [[1, 3, 2, 4, 3]] := by decide +kernel
  obtain ⟨f, pieces, hcompleted, hparams, hcode, haddressed⟩ := slot_accesses hresult
  have hone : compiled.writer.completed = [f] := hcompleted
  rw [hone] at hlocals
  exact ⟨hresult, f, pieces, hone, hparams, (List.cons.inj hlocals).1, hcode, haddressed⟩

end ModuleCompiler

end WasmBackend
