import Mathlib.Data.List.Forall2
import WasmBackend.Proofs.Outcome
import WasmBackend.Verifier

/-! # Steps of the verifier

What it means that the verifier accepts an instruction, and the rest of a body from a state on.

* `step_eq_ok`: an accepted instruction has a contract, and its operands can be popped.
* `popAll_eq_ok`: in code that can be reached, the operands that are popped are there and fit.
* `Accepts`: the verifier accepts the rest of a body, one instruction at a time. -/

namespace WasmBackend.Verifier

/-! ### Operands -/

/-- Operands have the types that are asked for, one for one. -/
def Fits (expected found : List OperandType) : Prop :=
  List.Forall₂ (fun e f => compatible e f = true) expected found

theorem compatible_widened (expected found : OperandType) :
    compatible expected.widened found = compatible expected found := by
  unfold compatible
  rw [OperandType.widened_widened]
  cases expected with
  | value ty => cases ty <;> rfl
  | struct id => rfl
  | array id => rfl

theorem fits_map_widened {expected found : List OperandType} :
    Fits (expected.map OperandType.widened) found ↔ Fits expected found := by
  unfold Fits
  rw [List.forall₂_map_left_iff]
  simp only [compatible_widened]

theorem Fits.length_eq {expected found : List OperandType} (h : Fits expected found) :
    expected.length = found.length := List.Forall₂.length_eq h

theorem pop_eq_ok {function : String} {position : CodePosition} {frame frame' : Frame}
    {expected : OperandType} (h : pop function position frame expected = .ok frame') :
    frame'.unreachable = frame.unreachable ∧ (frame.unreachable = false →
      ∃ found, frame.operands = found :: frame'.operands ∧ compatible expected found = true) := by
  unfold pop at h
  split at h
  · next found rest hops =>
    split_ifs at h with hc
    cases h
    exact ⟨rfl, fun _ => ⟨found, hops, hc⟩⟩
  · split_ifs at h with hu
    cases h
    exact ⟨rfl, fun hr => by simp [hr] at hu⟩

theorem foldlM_pop_eq_ok {function : String} {position : CodePosition} :
    ∀ {expected : List OperandType} {frame frame' : Frame},
      expected.foldlM (pop function position) frame = .ok frame' →
        frame'.unreachable = frame.unreachable ∧ (frame.unreachable = false →
          ∃ popped, frame.operands = popped ++ frame'.operands ∧ Fits expected popped)
  | [], frame, frame', h => by
    simp only [List.foldlM_nil, pure_eq_ok] at h
    subst h
    exact ⟨rfl, fun _ => ⟨[], rfl, .nil⟩⟩
  | e :: expected, frame, frame', h => by
    rw [List.foldlM_cons, bind_eq_ok] at h
    obtain ⟨mid, hpop, hrest⟩ := h
    obtain ⟨hflag, htop⟩ := pop_eq_ok hpop
    obtain ⟨hflag', htail⟩ := foldlM_pop_eq_ok hrest
    refine ⟨hflag'.trans hflag, fun hr => ?_⟩
    obtain ⟨found, hops, hc⟩ := htop hr
    obtain ⟨popped, hmid, hfits⟩ := htail (hflag.trans hr)
    exact ⟨found :: popped, by rw [hops, hmid, List.cons_append], .cons hc hfits⟩

theorem popAll_eq_ok {function : String} {position : CodePosition} {frame frame' : Frame}
    {pops : List OperandType} (h : popAll function position frame pops = .ok frame') :
    frame'.unreachable = frame.unreachable ∧ (frame.unreachable = false →
      ∃ popped, frame.operands = popped ++ frame'.operands ∧ Fits pops.reverse popped) :=
  foldlM_pop_eq_ok h

@[simp]
theorem unreachable_push (frame : Frame) (pushed : Option OperandType) :
    (push frame pushed).unreachable = frame.unreachable := by
  cases pushed <;> rfl

theorem operands_push (frame : Frame) (pushed : Option OperandType) :
    (push frame pushed).operands =
      (pushed.map OperandType.widened).toList ++ frame.operands := by
  cases pushed <;> rfl

/-! ### Instructions -/

/-- **An accepted instruction** has a contract, its operands are popped from the innermost frame,
and its control operator, if it is one, is admitted. -/
theorem step_eq_ok {ctx : Context} {s s' : State} {i : Instruction} :
    step ctx s i = .ok s' ↔ checkReturn ctx i = .ok () ∧ ∃ pops frame pushed,
      i.popTypes ctx.slots = .ok pops ∧
      popAll ctx.function i.position s.current pops = .ok frame ∧
      i.pushType ctx.slots = .ok pushed ∧
      (match i.controlOp? with
        | some op => control ctx i.position op { s with current := push frame pushed }
        | none => .ok { s with current := push frame pushed }) = .ok s' := by
  simp only [step, bind_eq_ok]
  constructor
  · rintro ⟨_, hret, pops, hpops, frame, hframe, pushed, hpushed, h⟩
    exact ⟨hret, pops, frame, pushed, hpops, hframe, hpushed, h⟩
  · rintro ⟨hret, pops, frame, pushed, hpops, hframe, hpushed, h⟩
    exact ⟨(), hret, pops, hpops, frame, hframe, pushed, hpushed, h⟩

theorem popTypes_of_return {ctx : Context} {i : Instruction} (hop : i.controlOp? = some .ret)
    (h : checkReturn ctx i = .ok ()) :
    i.popTypes ctx.slots = .ok (ctx.result.map OperandType.widened).toList := by
  obtain ⟨position, kind⟩ := i
  cases kind with
  | control op ty depth =>
    simp only [Instruction.controlOp?, Option.some.injEq] at hop
    subst hop
    simp only [checkReturn] at h
    split_ifs at h with hty
    rw [← hty]
    cases ty <;> rfl
  | _ => simp [Instruction.controlOp?] at hop

/-! ### Bodies -/

/-- The verifier accepts the rest of a body from a state on. -/
def Accepts (ctx : Context) (s : State) (code : List Instruction) : Prop :=
  (do finish ctx (← code.foldlM (step ctx) s)) = .ok ()

theorem accepts_iff_verify {ctx : Context} {body : List Instruction} :
    Accepts ctx {} body ↔ verify ctx body = .ok () := Iff.rfl

theorem accepts_nil {ctx : Context} {s : State} : Accepts ctx s [] ↔ finish ctx s = .ok () := by
  simp [Accepts, bind, Except.bind, pure, Except.pure]

theorem accepts_cons {ctx : Context} {s : State} {i : Instruction} {code : List Instruction} :
    Accepts ctx s (i :: code) ↔ ∃ s', step ctx s i = .ok s' ∧ Accepts ctx s' code := by
  unfold Accepts
  rw [List.foldlM_cons]
  simp only [bind_eq_ok]
  constructor
  · rintro ⟨last, ⟨s', hstep, hrest⟩, hfin⟩
    exact ⟨s', hstep, last, hrest, hfin⟩
  · rintro ⟨s', hstep, last, hrest, hfin⟩
    exact ⟨last, ⟨s', hstep, hrest⟩, hfin⟩

/-- A body ends with all blocks closed. In code that can be reached it leaves the result. -/
theorem finish_eq_ok {ctx : Context} {s : State} (h : finish ctx s = .ok ()) :
    s.outer = [] ∧ (s.current.unreachable = false →
      Fits ctx.result.toList s.current.operands) := by
  simp only [finish] at h
  split_ifs at h with houter hbal
  refine ⟨List.isEmpty_iff.mp houter, fun hr => ?_⟩
  simp only [hr, Bool.false_and, Bool.or_false, Bool.and_eq_true, decide_eq_true_eq] at hbal
  obtain ⟨hlen, hall⟩ := hbal
  cases hres : ctx.result with
  | none =>
    rw [hres] at hlen
    have : s.current.operands = [] := by simpa using hlen.symm
    rw [this]
    exact .nil
  | some r =>
    rw [hres] at hlen hall
    obtain ⟨found, hfound⟩ : ∃ found, s.current.operands = [found] := by
      rw [← List.length_eq_one_iff]
      simpa using hlen.symm
    rw [hfound] at hall ⊢
    have hc : compatible r.widened found = true := by simpa using hall
    exact .cons (by rwa [compatible_widened] at hc) .nil

end WasmBackend.Verifier
