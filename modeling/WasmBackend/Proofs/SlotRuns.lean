import Mathlib.Data.List.Induction
import Mathlib.Data.List.Pairwise
import WasmBackend.Proofs.SlotTable

/-! # Runs of a slot table

A slot table is asked for parameters, for the locals of slots and for temporaries, in any order, and
is emptied between functions. What counts is which locals it has *given* since it was last emptied.
As long as no two parameters have the same slot and stack type, a local is given for one slot and
type only, or for one temporary, and the table finds exactly what was given (`Accounts`). From this
follows what can be seen of a table (`Consistent`, `locals_over_runs`). -/

namespace WasmBackend.SlotTable

/-! ### Calls -/

/-- What a slot table can be asked for. -/
inductive Call
  | addParam (slot : Nat) (ty : OperandType)
  | resolve (slot : Nat) (ty : OperandType)
  | addTemporary (ty : OperandType)
  /-- The table is emptied. -/
  | reset
  deriving DecidableEq

namespace Call

/-- The slot and the stack type that a local is asked for with. -/
def key? : Call → Option (Nat × OperandType)
  | addParam slot ty | resolve slot ty => some (slot, ty.widened)
  | addTemporary _ | reset => none

/-- The stack type that a local is asked for with. -/
def type? : Call → Option OperandType
  | addParam _ ty | resolve _ ty | addTemporary ty => some ty.widened
  | reset => none

/-- A parameter is asked for. -/
def isParam : Call → Bool
  | addParam _ _ => true
  | _ => false

/-- A temporary is asked for. -/
def isTemporary : Call → Bool
  | addTemporary _ => true
  | _ => false

theorem type?_of_key? {c : Call} {slot : Nat} {ty : OperandType} (h : c.key? = some (slot, ty)) :
    c.type? = some ty := by
  cases c with
  | addParam slot' ty' =>
    cases h
    rfl
  | resolve slot' ty' =>
    cases h
    rfl
  | addTemporary ty' => cases h
  | reset => cases h

theorem key?_of_isTemporary {c : Call} (h : c.isTemporary = true) : c.key? = none := by
  cases c with
  | addTemporary ty => rfl
  | _ => cases h

end Call

/-- The local that a call gives, if it gives one, and the table after it. -/
def serve (t : SlotTable) : Call → Option Nat × SlotTable
  | .addParam slot ty => ((t.addParam slot ty).1.toOption, (t.addParam slot ty).2)
  | .resolve slot ty => (some (t.resolve slot ty).1, (t.resolve slot ty).2)
  | .addTemporary ty => (some (t.addTemporary ty).1, (t.addTemporary ty).2)
  | .reset => (none, {})

/-- The table after some calls. -/
def run (t : SlotTable) (calls : List Call) : SlotTable :=
  calls.foldl (fun t c => (t.serve c).2) t

/-- The call with the local that it gives. -/
def givenBy (t : SlotTable) (c : Call) : List (Call × Nat) := (t.serve c).1.toList.map (c, ·)

/-- The calls since the last reset that gave a local, with their locals. -/
def given (t : SlotTable) : List Call → List (Call × Nat)
  | [] => []
  | c :: rest => (if .reset ∈ rest then [] else t.givenBy c) ++ given (t.serve c).2 rest

theorem run_append (t : SlotTable) (calls calls' : List Call) :
    t.run (calls ++ calls') = (t.run calls).run calls' :=
  List.foldl_append ..

theorem given_concat (t : SlotTable) (calls : List Call) (c : Call) :
    t.given (calls ++ [c]) =
      if c = .reset then [] else t.given calls ++ (t.run calls).givenBy c := by
  induction calls generalizing t with
  | nil =>
    by_cases hreset : c = .reset
    · subst hreset
      rfl
    · rw [if_neg hreset]
      simp [given, run]
  | cons d rest ih =>
    rw [List.cons_append, given, ih]
    by_cases hreset : c = .reset
    · rw [if_pos hreset, if_pos hreset, if_pos (by simp [hreset])]
      rfl
    · have hmem : Call.reset ∈ rest ++ [c] ↔ Call.reset ∈ rest := by
        simp [Ne.symm hreset]
      simp only [if_neg hreset, hmem]
      rw [← List.append_assoc]
      rfl

/-! ### One call -/

/-- The table with a new local for a call. -/
def extended (t : SlotTable) (c : Call) (ty : OperandType) : SlotTable where
  slots := (c.key?.map (·, t.size)).toList ++ t.slots
  types := t.types ++ [ty]
  paramCount := t.paramCount + c.isParam.toNat

/-- **What a call can do.** It empties the table, it is a parameter that comes too late, it finds the
local of a slot, or it gives the next free local. -/
theorem serve_cases (t : SlotTable) (c : Call) :
    c = .reset ∨
    (t.serve c = (none, t) ∧ c.isParam = true) ∨
    (∃ slot ty index, c = .resolve slot ty ∧ t.find? slot ty.widened = some index ∧
      t.serve c = (some index, t)) ∨
    ∃ ty, c.type? = some ty ∧ t.serve c = (some t.size, t.extended c ty) ∧
      (c.isParam = true → t.size = t.paramCount) ∧
      (c.isParam = false → ∀ slot ty', c.key? = some (slot, ty') → t.find? slot ty' = none) := by
  cases c with
  | reset => exact .inl rfl
  | addParam slot ty =>
    right
    by_cases hfirst : t.size = t.paramCount
    · right
      right
      refine ⟨ty.widened, rfl, ?_, fun _ => hfirst, by simp [Call.isParam]⟩
      simp only [serve, SlotTable.addParam, if_pos hfirst]
      rfl
    · left
      refine ⟨?_, rfl⟩
      simp only [serve, SlotTable.addParam, if_neg hfirst]
      rfl
  | resolve slot ty =>
    right
    right
    cases hfind : t.find? slot ty.widened with
    | some index =>
      left
      refine ⟨slot, ty, index, rfl, hfind, ?_⟩
      simp only [serve, SlotTable.resolve, hfind]
    | none =>
      right
      refine ⟨ty.widened, rfl, ?_, by simp [Call.isParam], ?_⟩
      · simp only [serve, SlotTable.resolve, hfind]
        rfl
      · rintro _ slot' ty' ⟨⟩
        exact hfind
  | addTemporary ty =>
    right
    right
    right
    exact ⟨ty.widened, rfl, rfl, by simp [Call.isParam], by simp [Call.key?]⟩

/-! ### What a run leaves behind -/

/-- The table accounts for the locals that were given. -/
structure Accounts (log : List (Call × Nat)) (t : SlotTable) : Prop where
  typed : ∀ x ∈ log, ∃ ty, x.1.type? = some ty ∧ t.types[x.2]? = some ty
  find?_iff : ∀ slot ty index,
    t.find? slot ty = some index ↔ ∃ c, (c, index) ∈ log ∧ c.key? = some (slot, ty)
  /-- A local is given a second time only for the same slot and type. -/
  shared : log.Pairwise fun x y => x.2 = y.2 → ∃ key, x.1.key? = some key ∧ y.1.key? = some key
  params : (log.filter (·.1.isParam)).map Prod.snd = List.range t.paramCount
  paramCount_le : t.paramCount ≤ t.size
  dense : ∀ index < t.size, ∃ c, (c, index) ∈ log

theorem accounts_empty : Accounts [] {} := by
  refine ⟨by simp, ?_, List.Pairwise.nil, rfl, Nat.le_refl _, by simp [size]⟩
  intro slot ty index
  simp [find?]

variable {log : List (Call × Nat)} {t : SlotTable}

theorem Accounts.lt_size (h : Accounts log t) {x : Call × Nat} (hx : x ∈ log) : x.2 < t.size := by
  obtain ⟨ty, -, hty⟩ := h.typed x hx
  exact (List.getElem?_eq_some_iff.mp hty).1

theorem Accounts.key?_eq (h : Accounts log t) {x y : Call × Nat} (hx : x ∈ log) (hy : y ∈ log)
    (hindex : x.2 = y.2) : x.1.key? = y.1.key? := by
  have hpairwise : log.Pairwise fun x y => x.2 = y.2 → x.1.key? = y.1.key? := by
    refine h.shared.imp fun hshared hindex => ?_
    obtain ⟨key, hkey, hkey'⟩ := hshared hindex
    exact hkey.trans hkey'.symm
  have hsymm : Std.Symm fun x y : Call × Nat => x.2 = y.2 → x.1.key? = y.1.key? :=
    ⟨fun x y hsame hindex => (hsame hindex.symm).symm⟩
  exact hpairwise.forall_of_forall (fun _ _ _ => rfl) hx hy hindex

theorem Accounts.known (h : Accounts log t) {slot index : Nat} {ty : OperandType}
    (hfind : t.find? slot ty.widened = some index) :
    Accounts (log ++ [(.resolve slot ty, index)]) t := by
  obtain ⟨giver, hgiver, hkey⟩ := (h.find?_iff _ _ _).mp hfind
  have hsame : ∀ x ∈ log, x.2 = index → x.1.key? = some (slot, ty.widened) := by
    intro x hx hindex
    rw [← hkey]
    exact h.key?_eq hx hgiver hindex
  refine ⟨?_, ?_, ?_, ?_, h.paramCount_le, ?_⟩
  · intro x hx
    rcases List.mem_append.mp hx with hold | hnew
    · exact h.typed x hold
    · obtain rfl := List.mem_singleton.mp hnew
      obtain ⟨ty', htype, hty'⟩ := h.typed _ hgiver
      rw [Call.type?_of_key? hkey] at htype
      obtain rfl := Option.some.inj htype
      exact ⟨_, rfl, hty'⟩
  · intro slot' ty' index'
    rw [h.find?_iff]
    constructor
    · rintro ⟨c, hc, hckey⟩
      exact ⟨c, List.mem_append_left _ hc, hckey⟩
    · rintro ⟨c, hc, hckey⟩
      rcases List.mem_append.mp hc with hold | hnew
      · exact ⟨c, hold, hckey⟩
      · cases List.mem_singleton.mp hnew
        exact ⟨giver, hgiver, hkey.trans hckey⟩
  · refine List.pairwise_append.mpr ⟨h.shared, List.pairwise_singleton _ _, ?_⟩
    intro x hx y hy hindex
    obtain rfl := List.mem_singleton.mp hy
    exact ⟨_, hsame x hx hindex, rfl⟩
  · rw [List.filter_append, List.filter_singleton]
    simpa [Call.isParam] using h.params
  · intro index' hlt
    obtain ⟨c, hc⟩ := h.dense index' hlt
    exact ⟨c, List.mem_append_left _ hc⟩

theorem find?_extended (t : SlotTable) (c : Call) (ty : OperandType) (slot : Nat)
    (ty' : OperandType) :
    (t.extended c ty).find? slot ty' =
      if c.key? = some (slot, ty') then some t.size else t.find? slot ty' := by
  unfold find? extended
  cases hkey : c.key? with
  | none => simp
  | some key =>
    simp only [Option.map_some, Option.toList_some, List.singleton_append, List.lookup_cons,
      Option.some.injEq]
    by_cases hsame : key = (slot, ty')
    · simp [hsame]
    · have hne : ((slot, ty') == key) = false := by simpa using Ne.symm hsame
      rw [hne, if_neg hsame]

theorem Accounts.fresh (h : Accounts log t) {c : Call} {ty : OperandType} (htype : c.type? = some ty)
    (hparam : c.isParam = true → t.size = t.paramCount)
    (hnew : ∀ slot ty', c.key? = some (slot, ty') → t.find? slot ty' = none) :
    Accounts (log ++ [(c, t.size)]) (t.extended c ty) := by
  have hother : ∀ x ∈ log, x.2 ≠ t.size := fun x hx => Nat.ne_of_lt (h.lt_size hx)
  have hsize : (t.extended c ty).size = t.size + 1 := by simp [extended, size]
  refine ⟨?_, ?_, ?_, ?_, ?_, ?_⟩
  · intro x hx
    rcases List.mem_append.mp hx with hold | hadded
    · obtain ⟨ty', htype', hty'⟩ := h.typed x hold
      refine ⟨ty', htype', ?_⟩
      unfold extended
      rw [List.getElem?_append_left (h.lt_size hold)]
      exact hty'
    · obtain rfl := List.mem_singleton.mp hadded
      exact ⟨ty, htype, List.getElem?_concat_length ..⟩
  · intro slot ty' index
    rw [find?_extended]
    by_cases hkey : c.key? = some (slot, ty')
    · rw [if_pos hkey, Option.some.injEq]
      constructor
      · rintro rfl
        exact ⟨c, by simp, hkey⟩
      · rintro ⟨c', hc', hkey'⟩
        rcases List.mem_append.mp hc' with hold | hadded
        · have hfound := (h.find?_iff _ _ _).mpr ⟨c', hold, hkey'⟩
          rw [hnew slot ty' hkey] at hfound
          cases hfound
        · cases List.mem_singleton.mp hadded
          rfl
    · rw [if_neg hkey, h.find?_iff]
      constructor
      · rintro ⟨c', hc', hkey'⟩
        exact ⟨c', List.mem_append_left _ hc', hkey'⟩
      · rintro ⟨c', hc', hkey'⟩
        rcases List.mem_append.mp hc' with hold | hadded
        · exact ⟨c', hold, hkey'⟩
        · cases List.mem_singleton.mp hadded
          exact absurd hkey' hkey
  · refine List.pairwise_append.mpr ⟨h.shared, List.pairwise_singleton _ _, ?_⟩
    intro x hx y hy hindex
    obtain rfl := List.mem_singleton.mp hy
    exact absurd hindex (hother x hx)
  · rw [List.filter_append, List.map_append, h.params]
    cases hc : c.isParam with
    | true => simp [extended, hc, List.range_succ, hparam hc]
    | false => simp [extended, hc]
  · have hcount := h.paramCount_le
    have hparams : (t.extended c ty).paramCount = t.paramCount + c.isParam.toNat := rfl
    have hone := Bool.toNat_le c.isParam
    omega
  · intro index hlt
    rw [hsize] at hlt
    rcases Nat.lt_succ_iff_lt_or_eq.mp hlt with hold | rfl
    · obtain ⟨c', hc'⟩ := h.dense index hold
      exact ⟨c', List.mem_append_left _ hc'⟩
    · exact ⟨c, by simp⟩

/-- The slots and stack types of the parameters since the last reset. -/
def paramKeys (calls : List Call) : List (Option (Nat × OperandType)) :=
  ((given {} calls).filter (·.1.isParam)).map (·.1.key?)

theorem Accounts.exists_param (h : Accounts log t) (hfirst : t.size = t.paramCount)
    {slot index : Nat} {ty : OperandType} (hfind : t.find? slot ty = some index) :
    some (slot, ty) ∈ (log.filter (·.1.isParam)).map (·.1.key?) := by
  obtain ⟨giver, hgiver, hkey⟩ := (h.find?_iff _ _ _).mp hfind
  have hlt : index < t.paramCount := hfirst ▸ h.lt_size hgiver
  have hmem : index ∈ (log.filter (·.1.isParam)).map Prod.snd := by
    rw [h.params]
    exact List.mem_range.mpr hlt
  obtain ⟨x, hx, hindex⟩ := List.mem_map.mp hmem
  have hsame := h.key?_eq (List.mem_filter.mp hx).1 hgiver hindex
  exact List.mem_map.mpr ⟨x, hx, hsame.trans hkey⟩

/-- **What a run leaves behind**, if no two parameters have the same slot and stack type. -/
theorem accounts_run (calls : List Call) (h : (paramKeys calls).Nodup) :
    Accounts (given {} calls) (run {} calls) := by
  induction calls using List.reverseRecOn with
  | nil => exact accounts_empty
  | append_singleton calls c ih =>
    rw [run_append, given_concat]
    unfold paramKeys at h ih
    rw [given_concat] at h
    by_cases hreset : c = .reset
    · subst hreset
      exact accounts_empty
    · rw [if_neg hreset] at h ⊢
      rw [List.filter_append, List.map_append] at h
      have hold := ih (List.nodup_append.mp h).1
      show Accounts _ ((run {} calls).serve c).2
      rcases serve_cases (run {} calls) c with hc | ⟨hnone, -⟩ | ⟨slot, ty, index, rfl, hfind, hfound⟩ |
        ⟨ty, htype, hfresh, hparam, hnew⟩
      · exact absurd hc hreset
      · simpa [givenBy, hnone] using hold
      · simpa [givenBy, hfound] using hold.known hfind
      · -- a parameter is new because no other one has its slot and type
        have hnew' : ∀ slot ty', c.key? = some (slot, ty') →
            (run {} calls).find? slot ty' = none := by
          intro slot ty' hkey
          cases hc : c.isParam with
          | false => exact hnew hc slot ty' hkey
          | true =>
            by_contra hsome
            obtain ⟨index, hfind⟩ := Option.ne_none_iff_exists'.mp hsome
            have hmem := hold.exists_param (hparam hc) hfind
            refine (List.nodup_append.mp h).2.2 _ hmem _ ?_ hkey.symm
            simp [givenBy, hfresh, hc]
        simpa [givenBy, hfresh] using hold.fresh htype hparam hnew'

/-! ### Locals over whole runs -/

/-- What is seen of a table that gave these locals since it was last emptied. -/
structure Consistent (log : List (Call × Nat)) (t : SlotTable) : Prop where
  /-- A slot is resolved to the parameter or the local that was given for it and the stack type. -/
  resolve_given : ∀ c index slot ty, (c, index) ∈ log → c.key? = some (slot, ty.widened) →
    (t.resolve slot ty).1 = index
  /-- If there is none, it is resolved to the next free local. -/
  resolve_new : ∀ slot ty, (∀ x ∈ log, x.1.key? ≠ some (slot, ty.widened)) →
    (t.resolve slot ty).1 = t.size
  resolve_eq_iff : ∀ slot slot' ty ty' index index', (.resolve slot ty, index) ∈ log →
    (.resolve slot' ty', index') ∈ log →
    (index = index' ↔ slot = slot' ∧ ty.widened = ty'.widened)
  /-- A temporary is given once. -/
  temporaries : log.Pairwise fun x y =>
    x.1.isTemporary = true ∨ y.1.isTemporary = true → x.2 ≠ y.2
  typeOf_given : ∀ x ∈ log, ∃ ty, x.1.type? = some ty ∧ t.typeOf x.2 = .ok ty
  typeOf_fails_iff : ∀ index, (∃ e, t.typeOf index = .error e) ↔ t.size ≤ index
  /-- Every local of the table was given. -/
  dense : ∀ index < t.size, ∃ c, (c, index) ∈ log
  /-- Parameters are numbered from zero, in their order. -/
  params : (log.filter (·.1.isParam)).map Prod.snd = List.range t.paramCount
  localTypes : t.localTypes.map .ok =
    (List.range' t.paramCount (t.size - t.paramCount)).map t.typeOf
  /-- A parameter is refused only after another local, and then nothing changes. -/
  addParam_late : ∀ slot ty e t', t.addParam slot ty = (.error e, t') →
    e = .ofFault (.lateParameter slot) ∧ t.paramCount < t.size ∧ t' = t ∧
      t.serve (.addParam slot ty) = (none, t)

theorem typeOf_fails_iff (t : SlotTable) (index : Nat) :
    (∃ e, t.typeOf index = .error e) ↔ t.size ≤ index := by
  unfold typeOf size
  rw [← List.getElem?_eq_none_iff]
  cases t.types[index]? <;> simp

theorem map_localTypes (t : SlotTable) :
    t.localTypes.map .ok =
      (List.range' t.paramCount (t.size - t.paramCount)).map t.typeOf := by
  refine List.ext_getElem ?_ fun i hi hi' => ?_
  · simp [localTypes, size]
  · have hlt : t.paramCount + i < t.types.length := by
      simp only [localTypes, List.length_map, List.length_drop] at hi
      omega
    have htype : t.typeOf (t.paramCount + i) = .ok t.types[t.paramCount + i] :=
      typeOf_eq_ok.mpr (List.getElem?_eq_getElem hlt)
    rw [List.getElem_map, List.getElem_map, List.getElem_range', Nat.one_mul, htype]
    exact congrArg Except.ok List.getElem_drop

theorem Accounts.temporaries (h : Accounts log t) :
    log.Pairwise fun x y => x.1.isTemporary = true ∨ y.1.isTemporary = true → x.2 ≠ y.2 := by
  refine h.shared.imp fun hshared htemporary hindex => ?_
  obtain ⟨key, hkey, hkey'⟩ := hshared hindex
  rcases htemporary with htemporary | htemporary
  · rw [Call.key?_of_isTemporary htemporary] at hkey
    cases hkey
  · rw [Call.key?_of_isTemporary htemporary] at hkey'
    cases hkey'

theorem Accounts.resolve_of_key (h : Accounts log t) {c : Call} {index slot : Nat} {ty : OperandType}
    (hc : (c, index) ∈ log) (hkey : c.key? = some (slot, ty.widened)) :
    (t.resolve slot ty).1 = index := by
  have hfind : t.find? slot ty.widened = some index := (h.find?_iff _ _ _).mpr ⟨c, hc, hkey⟩
  simp only [SlotTable.resolve, hfind]

theorem Accounts.resolve_of_new (h : Accounts log t) {slot : Nat} {ty : OperandType}
    (hnew : ∀ x ∈ log, x.1.key? ≠ some (slot, ty.widened)) : (t.resolve slot ty).1 = t.size := by
  have hfind : t.find? slot ty.widened = none := by
    by_contra hsome
    obtain ⟨index, hfind⟩ := Option.ne_none_iff_exists'.mp hsome
    obtain ⟨c, hc, hkey⟩ := (h.find?_iff _ _ _).mp hfind
    exact hnew _ hc hkey
  simp only [SlotTable.resolve, hfind]

theorem Accounts.addParam_late (h : Accounts log t) {slot : Nat} {ty : OperandType}
    {e : CompileError} {t' : SlotTable} (hlate : t.addParam slot ty = (.error e, t')) :
    e = .ofFault (.lateParameter slot) ∧ t.paramCount < t.size ∧ t' = t ∧
      t.serve (.addParam slot ty) = (none, t) := by
  have hcount := h.paramCount_le
  by_cases hfirst : t.size = t.paramCount
  · rw [SlotTable.addParam, if_pos hfirst] at hlate
    cases hlate
  · have hrefused : t.addParam slot ty = (.error (.ofFault (.lateParameter slot)), t) := by
      rw [SlotTable.addParam, if_neg hfirst]
    rw [hrefused] at hlate
    cases hlate
    exact ⟨rfl, by omega, rfl, by rw [serve, hrefused]; rfl⟩

/-- **A slot table over whole runs.** If no two parameters that were accepted since the table was last
emptied have the same slot and stack type, the locals that it gave since then, and those that it gives
next, are consistent: each slot and stack type has one local, no temporary is given twice, every local
was given and has the type it was asked for with, and parameters come first. -/
theorem locals_over_runs (calls : List Call) (h : (paramKeys calls).Nodup) :
    Consistent (given {} calls) (run {} calls) := by
  have haccounts := accounts_run calls h
  refine ⟨?_, ?_, ?_, haccounts.temporaries, ?_, typeOf_fails_iff _, haccounts.dense,
    haccounts.params, map_localTypes _, ?_⟩
  · intro c index slot ty hc hkey
    exact haccounts.resolve_of_key hc hkey
  · intro slot ty hnew
    exact haccounts.resolve_of_new hnew
  · intro slot slot' ty ty' index index' hgiven hgiven'
    constructor
    · intro hindex
      have hkey := haccounts.key?_eq hgiven hgiven' hindex
      exact Prod.mk.inj (Option.some.inj hkey)
    · rintro ⟨rfl, htype⟩
      have hkey : (Call.resolve slot ty').key? = some (slot, ty.widened) := by
        rw [htype]
        rfl
      rw [← haccounts.resolve_of_key hgiven rfl, haccounts.resolve_of_key hgiven' hkey]
  · intro x hx
    obtain ⟨ty, htype, hty⟩ := haccounts.typed x hx
    exact ⟨ty, htype, typeOf_eq_ok.mpr hty⟩
  · intro slot ty e t' hlate
    exact haccounts.addParam_late hlate

/-- Two functions: in the first one two parameters have the same slot and type; in the second one a
slot is used with several types, there is a temporary, and a parameter comes too late. -/
def twoFunctions : List Call :=
  [.addParam 0 .i32, .addParam 0 .i32, .reset, .addParam 0 (.value .i64), .addParam 2 .i32,
    .resolve 2 (.value .i8), .resolve 2 (.value .f32), .addTemporary .i32, .addParam 4 .i32,
    .resolve 2 (.value .f32)]

/-- What the second function got. -/
theorem locals_over_runs_twoFunctions :
    (paramKeys twoFunctions).Nodup ∧ Consistent (given {} twoFunctions) (run {} twoFunctions) ∧
      given {} twoFunctions =
        [(.addParam 0 (.value .i64), 0), (.addParam 2 .i32, 1), (.resolve 2 (.value .i8), 1),
          (.resolve 2 (.value .f32), 2), (.addTemporary .i32, 3), (.resolve 2 (.value .f32), 2)] := by
  have hdistinct : (paramKeys twoFunctions).Nodup := by decide +kernel
  exact ⟨hdistinct, locals_over_runs twoFunctions hdistinct, by decide +kernel⟩

end WasmBackend.SlotTable
