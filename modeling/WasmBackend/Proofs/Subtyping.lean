import Mathlib.Logic.Relation
import WasmBackend.Proofs.CompileVerdict
import WasmBackend.Proofs.OpenBlocks

/-! # Operands as subtypes

The verifier compares the operand that it finds with the one that is expected before their types are
lowered, and the target compares the lowered types. This module says what the first tells of the second.

* `exists_push_of_mem`: every operand of the verifier was pushed by an instruction before it.
* `popAll_zip`: the operands that are popped fit, also in code that cannot be reached.
* `isSubtype_iff_of_compared`: of the operands that fit, those of another hierarchy of references than
  the expected type, and an `anyref` where an `eqref` is expected, are not subtypes of it. All others
  are, and they have the same type unless a generic reference is expected. -/

namespace WasmBackend

/-! ### Subtypes of the target -/

namespace WasmType

/-- One step up among the reference types. Functions and references of the host have nothing above
them. -/
inductive Below : WasmType → WasmType → Prop
  | ref (index : Nat) : Below (.ref index) (.value .eqRef)
  | eqRef : Below (.value .eqRef) (.value .anyRef)

/-- A value of the first type can stand for one of the second. -/
def IsSubtype : WasmType → WasmType → Prop := Relation.ReflTransGen Below

/-- The type above all others that are comparable with the type. -/
def top : WasmType → ValueType
  | .ref _ | .value .eqRef => .anyRef
  | .value ty => ty

theorem IsSubtype.top_eq {f e : WasmType} (h : IsSubtype f e) : f.top = e.top := by
  induction h with
  | refl => rfl
  | tail _ hstep ih =>
    rw [ih]
    cases hstep <;> rfl

theorem isSubtype_anyRef_iff {e : WasmType} : IsSubtype (.value .anyRef) e ↔ e = .value .anyRef := by
  constructor
  · intro h
    rcases h.cases_head with h | ⟨mid, hstep, -⟩
    · exact h.symm
    · cases hstep
  · rintro rfl
    exact .refl

theorem top_value_eq_iff {f e : ValueType} : top (.value f) = top (.value e) ↔
    f = e ∨ (f = .anyRef ∧ e = .eqRef) ∨ (f = .eqRef ∧ e = .anyRef) := by
  cases f <;> cases e <;> decide

/-- Below a value type are the types of its hierarchy, except that `anyref` is not below `eqref`. -/
theorem isSubtype_value_iff {f : WasmType} {ty : ValueType} :
    IsSubtype f (.value ty) ↔
      f.top = top (.value ty) ∧ ¬(ty = .eqRef ∧ f = .value .anyRef) := by
  constructor
  · intro h
    refine ⟨h.top_eq, ?_⟩
    rintro ⟨rfl, rfl⟩
    cases isSubtype_anyRef_iff.mp h
  · rintro ⟨htop, hne⟩
    have hupper : IsSubtype (.value .eqRef) (.value .anyRef) := .single .eqRef
    cases f with
    | ref index =>
      have hlower : IsSubtype (.ref index) (.value .eqRef) := .single (.ref index)
      rcases top_value_eq_iff.mp (show top (.value .anyRef) = top (.value ty) from htop) with
        rfl | ⟨-, rfl⟩ | ⟨⟨⟩, -⟩
      · exact hlower.trans hupper
      · exact hlower
    | value found =>
      rcases top_value_eq_iff.mp htop with rfl | ⟨rfl, rfl⟩ | ⟨rfl, rfl⟩
      · exact .refl
      · exact absurd ⟨rfl, rfl⟩ hne
      · exact hupper

end WasmType

/-- The top of the hierarchy in which the lowered type is. A class reference is one of the target with
native types, and one of the host without. -/
def OperandType.top (useGc : Bool) : OperandType → ValueType
  | .value .eqRef => .anyRef
  | .value ty => ty.widened
  | .struct _ | .array _ => if useGc then .anyRef else .externRef

namespace TypeRegistry

variable {t : TypeRegistry}

theorem top_classReference (typeIndex : Nat) :
    (t.classReference typeIndex).top = if t.useGc then .anyRef else .externRef := by
  unfold classReference
  split <;> rfl

theorem top_of_lower {ty : OperandType} {w : WasmType} (h : t.lower ty = .ok w) :
    w.top = ty.top t.useGc := by
  cases ty with
  | value ty =>
    cases h
    cases ty <;> rfl
  | struct id =>
    obtain ⟨s, -, rfl⟩ := map_eq_ok.mp h
    exact top_classReference _
  | array id =>
    obtain ⟨a, -, rfl⟩ := map_eq_ok.mp h
    exact top_classReference _

theorem classReference_ne_anyRef (typeIndex : Nat) :
    t.classReference typeIndex ≠ .value .anyRef := by
  unfold classReference
  split <;> nofun

theorem lower_eq_anyRef_iff {ty : OperandType} {w : WasmType} (h : t.lower ty = .ok w) :
    w = .value .anyRef ↔ ty = .value .anyRef := by
  cases ty with
  | value ty =>
    cases h
    cases ty <;> decide
  | struct id =>
    obtain ⟨s, -, rfl⟩ := map_eq_ok.mp h
    simp [classReference_ne_anyRef]
  | array id =>
    obtain ⟨a, -, rfl⟩ := map_eq_ok.mp h
    simp [classReference_ne_anyRef]

end TypeRegistry

namespace Verifier

variable {ctx : Context}

/-! ### Types that fit -/

/-- The type takes any reference. -/
def takesAnyRef (ty : OperandType) : Bool :=
  ty = .value .anyRef || ty = .value .eqRef || ty = .value .externRef

theorem widened_eq_of_compatible {expected found : OperandType} (h : compatible expected found = true)
    (hexpected : takesAnyRef expected = false) : expected.widened = found.widened := by
  unfold compatible at h
  unfold takesAnyRef at hexpected
  split at h <;> simp_all

/-- **Subtypes among the types that fit.** -/
theorem isSubtype_iff_of_compatible {t : TypeRegistry} {expected found : OperandType} {e f : WasmType}
    (h : compatible expected found = true) (he : t.lower expected = .ok e)
    (hf : t.lower found = .ok f) :
    (takesAnyRef expected = false → f = e) ∧
      (f.IsSubtype e ↔ found.top t.useGc = expected.top t.useGc ∧
        ¬(expected = .value .eqRef ∧ found = .value .anyRef)) := by
  have hsame : takesAnyRef expected = false → f = e := by
    intro hexpected
    have hlower : t.lower expected = t.lower found := by
      rw [← t.lower_widened expected, widened_eq_of_compatible h hexpected, t.lower_widened]
    rw [he, hf] at hlower
    exact (Except.ok.inj hlower).symm
  refine ⟨hsame, ?_⟩
  rw [← TypeRegistry.top_of_lower he, ← TypeRegistry.top_of_lower hf,
    ← TypeRegistry.lower_eq_anyRef_iff hf]
  cases hexpected : takesAnyRef expected with
  | false =>
    have hne : expected ≠ .value .eqRef := by
      rintro rfl
      cases hexpected
    simp [hsame hexpected, hne, WasmType.IsSubtype, Relation.ReflTransGen.refl]
  | true =>
    simp only [takesAnyRef, Bool.or_eq_true, decide_eq_true_eq] at hexpected
    rcases hexpected with (rfl | rfl) | rfl <;>
    · cases he
      rw [WasmType.isSubtype_value_iff]
      simp [ValueType.widened, ValueType.isSubWord]

/-! ### Operands that are popped -/

theorem pop_zip {function : String} {position : CodePosition} {frame frame' : Frame}
    {expected : OperandType} (h : pop function position frame expected = .ok frame') :
    frame'.operands = frame.operands.tail ∧
      ∀ found ∈ frame.operands.head?, compatible expected found = true := by
  unfold pop at h
  split at h
  · next found rest hops =>
    split_ifs at h with hc
    cases h
    simp [hops, hc]
  · next hops =>
    split_ifs at h
    cases h
    simp [hops]

/-- Operands are popped from the top, each for the type in its place, as long as there are any. -/
theorem foldlM_pop_zip {function : String} {position : CodePosition} {expected : List OperandType}
    {frame frame' : Frame} (h : expected.foldlM (pop function position) frame = .ok frame') :
    frame'.operands = frame.operands.drop expected.length ∧
      ∀ pair ∈ expected.zip frame.operands, compatible pair.1 pair.2 = true := by
  induction expected generalizing frame with
  | nil =>
    cases h
    simp
  | cons e rest ih =>
    rw [List.foldlM_cons, bind_eq_ok] at h
    obtain ⟨mid, hpop, hrest⟩ := h
    obtain ⟨htail, htop⟩ := pop_zip hpop
    obtain ⟨hdrop, hfits⟩ := ih hrest
    rw [htail] at hdrop hfits
    refine ⟨by rw [hdrop, List.drop_tail, List.length_cons], ?_⟩
    cases hops : frame.operands with
    | nil => simp
    | cons found below =>
      rw [hops] at htop hfits
      intro pair hpair
      rw [List.zip_cons_cons, List.mem_cons] at hpair
      rcases hpair with rfl | hpair
      · exact htop found rfl
      · exact hfits pair hpair

/-- **Popped operands fit**, also in code that cannot be reached. -/
theorem popAll_zip {function : String} {position : CodePosition} {frame frame' : Frame}
    {pops : List OperandType} (h : popAll function position frame pops = .ok frame') :
    frame'.operands = frame.operands.drop pops.length ∧
      ∀ pair ∈ pops.reverse.zip frame.operands, compatible pair.1 pair.2 = true := by
  obtain ⟨hdrop, hfits⟩ := foldlM_pop_zip h
  exact ⟨by rwa [List.length_reverse] at hdrop, hfits⟩

theorem finish_zip {s : State} (h : finish ctx s = .ok ()) :
    ∀ pair ∈ (ctx.result.map OperandType.widened).toList.zip s.current.operands.reverse,
      compatible pair.1 pair.2 = true := by
  simp only [finish] at h
  split_ifs at h with houter hbalanced
  intro pair hpair
  rw [Bool.or_eq_true, Bool.and_eq_true, Bool.and_eq_true] at hbalanced
  rcases hbalanced with ⟨-, hall⟩ | ⟨-, hempty⟩
  · exact List.all_eq_true.mp hall pair hpair
  · rw [List.isEmpty_iff.mp hempty, List.zip_nil_right] at hpair
    cases hpair

/-! ### Where operands come from -/

/-- The operands of all open frames. -/
def State.operands (s : State) : List OperandType := (s.current :: s.outer).flatMap Frame.operands

theorem operands_mk (current : Frame) (outer : List Frame) :
    (State.mk current outer).operands = current.operands ++ outer.flatMap Frame.operands := rfl

/-- A control operator brings in no operands. -/
theorem operands_control {position : CodePosition} {op : ControlOp} {s s' : State}
    (h : control ctx position op s = .ok s') : s'.operands ⊆ s.operands := by
  obtain ⟨current, outer⟩ := s
  cases op with
  | block | loop =>
    cases h
    exact List.Subset.refl _
  | endBlock =>
    simp only [control] at h
    split at h
    · cases h
    · split_ifs at h
      cases h
      exact List.subset_append_right _ _
  | ret | br | unreachable =>
    cases h
    exact List.subset_append_right _ _
  | drop | brIf =>
    cases h
    exact List.Subset.refl _

/-- **An instruction brings in what it pushes**: any other operand was there before it. -/
theorem mem_operands_step {s s' : State} {i : Instruction} (h : step ctx s i = .ok s')
    {ty : OperandType} (hty : ty ∈ s'.operands) :
    ty ∈ s.operands ∨ ∃ pushed, i.pushType ctx.slots = .ok (some pushed) ∧ ty = pushed.widened := by
  obtain ⟨-, pops, frame, pushed, -, hpop, hpush, hcontrol⟩ := step_eq_ok.mp h
  have hty : ty ∈ State.operands { s with current := push frame pushed } := by
    rcases hop : i.controlOp? with _ | op <;> rw [hop] at hcontrol
    · cases hcontrol
      exact hty
    · exact operands_control hcontrol hty
  rw [operands_mk, operands_push, (popAll_zip hpop).1, List.append_assoc, List.mem_append,
    List.mem_append] at hty
  rcases hty with hpushed | hkept | houter
  · rw [Option.mem_toList, Option.map_eq_some_iff] at hpushed
    obtain ⟨pushed, rfl, rfl⟩ := hpushed
    exact .inr ⟨pushed, hpush, rfl⟩
  · exact .inl (List.mem_append_left _ (List.mem_of_mem_drop hkept))
  · exact .inl (List.mem_append_right _ houter)

/-- **Every operand was pushed** by an instruction that the verifier has accepted. -/
theorem exists_push_of_mem {code : List Instruction} {s : State}
    (h : code.foldlM (step ctx) {} = .ok s) {ty : OperandType} (hty : ty ∈ s.operands) :
    ∃ i ∈ code, ∃ pushed, i.pushType ctx.slots = .ok (some pushed) ∧ ty = pushed.widened := by
  induction code using List.reverseRecOn generalizing s with
  | nil =>
    cases h
    simp [State.operands] at hty
  | append_singleton init i ih =>
    obtain ⟨mid, hmid, hstep⟩ := foldlM_concat_eq_ok.mp h
    rcases mem_operands_step hstep hty with hbefore | hpushed
    · obtain ⟨i', hi', hpushed⟩ := ih hmid hbefore
      exact ⟨i', List.mem_append_left _ hi', hpushed⟩
    · exact ⟨i, List.mem_append_right _ List.mem_cons_self, hpushed⟩

/-! ### Comparisons -/

/-- The verifier finds an operand where one of an expected type is asked for: an instruction of the
body pops it, or it is left behind as the result. -/
inductive Compared (ctx : Context) (body : List Instruction) (expected found : OperandType) : Prop
  | popped {before after : List Instruction} {i : Instruction} {s : State} {pops : List OperandType}
      (split : body = before ++ i :: after) (run : before.foldlM (step ctx) {} = .ok s)
      (pops_eq : i.popTypes ctx.slots = .ok pops)
      (pair : (expected, found) ∈ pops.reverse.zip s.current.operands)
  | left {s : State} (run : body.foldlM (step ctx) {} = .ok s)
      (pair : (expected, found) ∈
        (ctx.result.map OperandType.widened).toList.zip s.current.operands.reverse)

/-- The classes in the contracts of a body and in the result of the function are registered. -/
structure Registered (t : TypeRegistry) (ctx : Context) (body : List Instruction) : Prop where
  pops : ∀ i ∈ body, ∀ pops, i.popTypes ctx.slots = .ok pops → ∀ ty ∈ pops, t.Knows ty
  pushed : ∀ i ∈ body, ∀ ty, i.pushType ctx.slots = .ok (some ty) → t.Knows ty
  result : ∀ ty ∈ ctx.result, t.Knows ty

theorem Registered.knows_operand {t : TypeRegistry} {body code : List Instruction} {s : State}
    (h : Registered t ctx body) (hcode : ∀ i ∈ code, i ∈ body)
    (hrun : code.foldlM (step ctx) {} = .ok s) {ty : OperandType} (hty : ty ∈ s.current.operands) :
    t.Knows ty := by
  obtain ⟨i, hi, pushed, hpushed, rfl⟩ := exists_push_of_mem hrun (List.mem_append_left _ hty)
  exact (h.pushed i (hcode i hi) pushed hpushed).widened

/-- The verifier compares operands of known types, and those of an accepted body fit. -/
theorem Compared.knows {t : TypeRegistry} {body : List Instruction} {expected found : OperandType}
    (hc : Compared ctx body expected found) (ht : Registered t ctx body)
    (h : verify ctx body = .ok ()) :
    t.Knows expected ∧ t.Knows found ∧ compatible expected found = true := by
  cases hc with
  | @popped before after i s pops hsplit hrun hpops hpair =>
    subst hsplit
    obtain ⟨s₁, s', hs, hstep⟩ := exists_step_of_verify h
    cases hs.symm.trans hrun
    obtain ⟨-, pops₁, frame, -, hpops₁, hpop, -⟩ := step_eq_ok.mp hstep
    cases hpops₁.symm.trans hpops
    obtain ⟨hexpected, hfound⟩ := List.of_mem_zip hpair
    have hi : i ∈ before ++ i :: after := List.mem_append_right _ List.mem_cons_self
    exact ⟨ht.pops i hi pops hpops expected (List.mem_reverse.mp hexpected),
      ht.knows_operand (fun _ => List.mem_append_left _) hrun hfound, (popAll_zip hpop).2 _ hpair⟩
  | @left s hrun hpair =>
    obtain ⟨last, hlast, hfinish⟩ := bind_eq_ok.mp h
    cases hlast.symm.trans hrun
    obtain ⟨hexpected, hfound⟩ := List.of_mem_zip hpair
    rw [Option.mem_toList, Option.map_eq_some_iff] at hexpected
    obtain ⟨result, hresult, rfl⟩ := hexpected
    exact ⟨(ht.result result hresult).widened,
      ht.knows_operand (fun _ => id) hrun (List.mem_reverse.mp hfound), finish_zip hfinish _ hpair⟩

/-- **Accepted operands after lowering.** Where the verifier compares operand types in a body that it
accepts, both can be lowered. The lowered types are the same unless a generic reference is expected.
Then the operand is a subtype exactly if it is in the hierarchy of the expected reference, and is not
an `anyref` for an `eqref`. -/
theorem isSubtype_iff_of_compared {t : TypeRegistry} {body : List Instruction}
    (ht : Registered t ctx body) (h : verify ctx body = .ok ()) {expected found : OperandType}
    (hc : Compared ctx body expected found) :
    ∃ e f, t.lower expected = .ok e ∧ t.lower found = .ok f ∧
      (takesAnyRef expected = false → f = e) ∧
      (f.IsSubtype e ↔ found.top t.useGc = expected.top t.useGc ∧
        ¬(expected = .value .eqRef ∧ found = .value .anyRef)) := by
  obtain ⟨hexpected, hfound, hfits⟩ := hc.knows ht h
  obtain ⟨e, he⟩ := TypeRegistry.lower_of_knows hexpected
  obtain ⟨f, hf⟩ := TypeRegistry.lower_of_knows hfound
  exact ⟨e, f, he, hf, isSubtype_iff_of_compatible hfits he hf⟩

/-- A function that leaves a string behind. -/
def greeting : List Instruction := [⟨.unknown, .stringConst 0 TypeRegistry.stringType⟩]

/-- The function with a reference as its result. -/
def greetingAs (result : ValueType) : Context :=
  { function := "greeting", result := some (.value result), slots := {} }

theorem registered_greeting (result : ValueType) :
    Registered (.new true) (greetingAs result) greeting where
  pops i hi pops hpops := by
    obtain rfl := List.mem_singleton.mp hi
    cases hpops
    nofun
  pushed i hi ty hty := by
    obtain rfl := List.mem_singleton.mp hi
    cases hty
    decide +kernel
  result ty hty := by
    cases hty
    trivial

theorem compared_greeting {result : ValueType} (hresult : result.widened = result) :
    Compared (greetingAs result) greeting (.value result) TypeRegistry.stringType := by
  refine .left (s := ⟨{ operands := [TypeRegistry.stringType] }, []⟩) rfl ?_
  simp [greetingAs, OperandType.widened, hresult]

/-- With native types, a string can be returned as an `anyref`. -/
theorem isSubtype_greeting_anyRef :
    Registered (.new true) (greetingAs .anyRef) greeting ∧
      verify (greetingAs .anyRef) greeting = .ok () ∧
      Compared (greetingAs .anyRef) greeting (.value .anyRef) TypeRegistry.stringType ∧
      ∃ f, (TypeRegistry.new true).lower TypeRegistry.stringType = .ok f ∧
        f.IsSubtype (.value .anyRef) := by
  have hknown := registered_greeting .anyRef
  have hverify : verify (greetingAs .anyRef) greeting = .ok () := by decide +kernel
  have hcompared := compared_greeting (show ValueType.anyRef.widened = .anyRef from rfl)
  obtain ⟨e, f, he, hf, -, hiff⟩ := isSubtype_iff_of_compared hknown hverify hcompared
  cases he
  exact ⟨hknown, hverify, hcompared, f, hf, hiff.mpr (by decide +kernel)⟩

/-- The verifier lets a string be returned as a reference of the host. With native types its lowered
type is not a subtype of the result. -/
theorem not_isSubtype_greeting_externRef :
    Registered (.new true) (greetingAs .externRef) greeting ∧
      verify (greetingAs .externRef) greeting = .ok () ∧
      Compared (greetingAs .externRef) greeting (.value .externRef) TypeRegistry.stringType ∧
      (TypeRegistry.new true).lower (.value .externRef) = .ok (.value .externRef) ∧
      (TypeRegistry.new true).lower TypeRegistry.stringType = .ok (.ref 0) ∧
      ¬ WasmType.IsSubtype (.ref 0) (.value .externRef) := by
  refine ⟨registered_greeting _, by decide +kernel, compared_greeting rfl, rfl, by decide +kernel, ?_⟩
  intro h
  cases h.top_eq

end Verifier

end WasmBackend
