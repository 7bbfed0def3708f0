import Mathlib.Data.List.Induction
import WasmBackend.Proofs.VerifierSoundness

/-! # Open blocks in verified code

The verifier keeps one frame for the function and one for every block that is open. This module says
what it checks of them and what it does not.

* `leftover_iff_dead`: at an `END` the closed frame is empty, unless code behind a jump out of the
  block has left operands in it; such operands are dropped without an error.
* `verify_ignores_depths`: the label of a branch is not looked at. At every branch of an accepted
  body as many frames are open as blocks, so a branch has a target exactly if its label is not
  larger than the number of blocks that are open there. -/

namespace WasmBackend.Verifier

open Execution (nesting step_outer openAfter length_outer_step branchDepth?)

variable {ctx : Context}

/-! ### Dead code -/

/-- Code behind the instruction cannot be reached from it. -/
def isJump (i : Instruction) : Bool :=
  match i.controlOp? with
  | some .ret | some .br | some .unreachable => true
  | _ => false

/-- Number of open blocks after an instruction, counted from a place in the code. There is none if the
instruction closes a block that was open at that place. -/
def depthAfter? (depth : Nat) (i : Instruction) : Option Nat :=
  match nesting i, depth with
  | .opens, depth => some (depth + 1)
  | .closes, 0 => none
  | .closes, depth + 1 => some depth
  | .keeps, depth => some depth

/-- The frame in which code is verified behind a jump. -/
def deadFrame : Frame := { operands := [], unreachable := true }

/-- Which frames are dead, the innermost one first. -/
def State.dead (s : State) : List Bool := (s.current :: s.outer).map Frame.unreachable

/-- **What an instruction does to dead frames**: a new block is alive, and a jump kills the innermost
block. -/
theorem dead_step {s s' : State} {i : Instruction} (h : step ctx s i = .ok s') :
    s'.dead = match nesting i with
      | .opens => false :: s.dead
      | .closes => s.dead.tail
      | .keeps => (isJump i || s.current.unreachable) :: s.dead.tail := by
  have houter := step_outer h
  obtain ⟨-, pops, frame, pushed, -, hpop, -, hcontrol⟩ := step_eq_ok.mp h
  have hflag := (popAll_eq_ok hpop).1
  unfold nesting at houter ⊢
  unfold isJump
  rcases hop : i.controlOp? with _ | op
  · rw [hop] at hcontrol
    rw [← Except.ok.inj hcontrol]
    simp [State.dead, hflag]
  · rw [hop] at hcontrol houter
    cases op with
    | block | loop | ret | br | unreachable | drop | brIf =>
      rw [← Except.ok.inj hcontrol]
      simp [State.dead, hflag]
    | endBlock => simp [State.dead, houter]

theorem step_of_jump {s s' : State} {i : Instruction} (hi : isJump i = true)
    (h : step ctx s i = .ok s') : s' = ⟨deadFrame, s.outer⟩ := by
  obtain ⟨-, pops, frame, pushed, -, -, -, hcontrol⟩ := step_eq_ok.mp h
  unfold isJump at hi
  rcases hop : i.controlOp? with _ | op <;> rw [hop] at hi hcontrol
  · cases hi
  · cases op with
    | ret | br | unreachable => exact (Except.ok.inj hcontrol).symm
    | _ => cases hi

/-- A frame that is dead after an instruction was dead before it, unless the instruction is a jump and
the frame is the innermost one. -/
theorem dead_of_step {s s' : State} {i : Instruction} (h : step ctx s i = .ok s') {level : Nat}
    (hdead : s'.dead[level]? = some true) :
    (isJump i = true ∧ level = 0) ∨
      ∃ level', s.dead[level']? = some true ∧ depthAfter? level' i = some level := by
  rw [dead_step h] at hdead
  rcases hn : nesting i <;> simp only [hn] at hdead
  · cases level with
    | zero => cases hdead
    | succ level => exact .inr ⟨level, hdead, by simp [depthAfter?, hn]⟩
  · rw [List.getElem?_tail] at hdead
    exact .inr ⟨level + 1, hdead, by simp [depthAfter?, hn]⟩
  · cases level with
    | zero =>
      cases hjump : isJump i with
      | true => exact .inl ⟨rfl, rfl⟩
      | false =>
        rw [hjump, Bool.false_or] at hdead
        exact .inr ⟨0, hdead, by simp [depthAfter?, hn]⟩
    | succ level =>
      rw [List.getElem?_cons_succ, List.getElem?_tail] at hdead
      exact .inr ⟨level + 1, hdead, by simp [depthAfter?, hn]⟩

theorem foldlM_concat_eq_ok {ε α β : Type} {f : β → α → Except ε β} {l : List α} {a : α} {b d : β} :
    (l ++ [a]).foldlM f b = .ok d ↔ ∃ c, l.foldlM f b = .ok c ∧ f c a = .ok d := by
  rw [List.foldlM_append, bind_eq_ok]
  simp only [List.foldlM_cons, List.foldlM_nil, bind_eq_ok, pure_eq_ok]
  grind

/-- **A dead frame has a jump**: if a frame is dead after some code, the code has a jump behind which
all blocks inside the frame, and no others, are left open. -/
theorem exists_jump {before : List Instruction} {s : State}
    (h : before.foldlM (step ctx) {} = .ok s) {level : Nat} (hdead : s.dead[level]? = some true) :
    ∃ front jump behind, before = front ++ jump :: behind ∧ isJump jump = true ∧
      behind.foldlM depthAfter? 0 = some level := by
  induction before using List.reverseRecOn generalizing s level with
  | nil =>
    cases h
    cases level <;> simp [State.dead] at hdead
  | append_singleton init i ih =>
    obtain ⟨mid, hmid, hstep⟩ := foldlM_concat_eq_ok.mp h
    rcases dead_of_step hstep hdead with ⟨hjump, rfl⟩ | ⟨level', hdead', hdepth⟩
    · exact ⟨init, i, [], rfl, hjump, rfl⟩
    · obtain ⟨front, jump, behind, rfl, hjump, hbehind⟩ := ih hmid hdead'
      refine ⟨front, jump, behind ++ [i], by simp, hjump, ?_⟩
      rw [List.foldlM_append, hbehind]
      simp [hdepth]

/-- Code does not touch the frames around the blocks it opens. -/
theorem outer_of_depthAfter {code : List Instruction} {current : Frame} (inner : List Frame)
    {outer : List Frame} {s : State} {depth : Nat}
    (hdepth : code.foldlM depthAfter? inner.length = some depth)
    (h : code.foldlM (step ctx) ⟨current, inner ++ outer⟩ = .ok s) :
    ∃ inner', s.outer = inner' ++ outer ∧ inner'.length = depth := by
  induction code generalizing current inner with
  | nil =>
    cases h
    cases hdepth
    exact ⟨inner, rfl, rfl⟩
  | cons i rest ih =>
    rw [List.foldlM_cons, bind_eq_ok] at h
    obtain ⟨⟨current', outer'⟩, hstep, hrest⟩ := h
    rw [List.foldlM_cons, Option.bind_eq_bind, Option.bind_eq_some_iff] at hdepth
    obtain ⟨depth', hfirst, hdepth⟩ := hdepth
    have houter := step_outer hstep
    unfold depthAfter? at hfirst
    rcases hn : nesting i <;> simp only [hn] at houter hfirst
    · obtain ⟨frame, hs⟩ := houter
      cases hs
      cases hfirst
      exact ih (frame :: inner) hdepth hrest
    · cases inner with
      | nil => cases hfirst
      | cons frame inner =>
        cases hfirst
        cases houter
        exact ih inner hdepth hrest
    · cases hfirst
      subst houter
      exact ih inner hdepth hrest

/-! ### Operands at the end of a block -/

/-- An accepted `END` takes the verifier back to the frame in which the block was opened. The closed
frame is empty if it is alive. -/
theorem step_of_end {s s' : State} {i : Instruction} (hi : i.controlOp? = some .endBlock)
    (h : step ctx s i = .ok s') :
    s.outer = s'.current :: s'.outer ∧ (s.current.operands ≠ [] → s.current.unreachable = true) := by
  have houter := step_outer h
  obtain ⟨-, pops, frame, pushed, hpops, hpop, hpushed, hcontrol⟩ := step_eq_ok.mp h
  obtain ⟨position, kind⟩ := i
  cases kind with
  | control op ty depth =>
    cases hi
    cases ty with
    | some ty => cases hpops
    | none =>
      cases hpops
      cases hpop
      cases hpushed
      refine ⟨houter, fun hleft => ?_⟩
      simp only [Instruction.controlOp?, control, push] at hcontrol
      rw [houter] at hcontrol
      by_contra halive
      simp [halive, hleft] at hcontrol
  | _ => cases hi

theorem exists_step_of_verify {before after : List Instruction} {i : Instruction}
    (h : verify ctx (before ++ i :: after) = .ok ()) :
    ∃ s s', before.foldlM (step ctx) {} = .ok s ∧ step ctx s i = .ok s' := by
  obtain ⟨last, hrun, -⟩ := bind_eq_ok.mp h
  rw [List.foldlM_append, bind_eq_ok] at hrun
  obtain ⟨s, hs, hrest⟩ := hrun
  rw [List.foldlM_cons, bind_eq_ok] at hrest
  obtain ⟨s', hstep, -⟩ := hrest
  exact ⟨s, s', hs, hstep⟩

/-- **Only dead code leaves operands at the end of a block.** At an `END` of an accepted body the
closed frame holds an operand exactly if the block has a jump such that the code behind it, verified
from a dead frame, leaves one. The operands are dropped: the verifier goes on in the frame in which
the block was opened. -/
theorem leftover_iff_dead {before after : List Instruction} {i : Instruction}
    (hi : i.controlOp? = some .endBlock) (h : verify ctx (before ++ i :: after) = .ok ()) :
    ∃ s s', before.foldlM (step ctx) {} = .ok s ∧ step ctx s i = .ok s' ∧
      s.outer = s'.current :: s'.outer ∧
      (s.current.operands ≠ [] ↔ ∃ front jump behind dead, before = front ++ jump :: behind ∧
        isJump jump = true ∧ behind.foldlM depthAfter? 0 = some 0 ∧
        behind.foldlM (step ctx) ⟨deadFrame, s.outer⟩ = .ok dead ∧ dead.current.operands ≠ []) := by
  obtain ⟨s, s', hs, hstep⟩ := exists_step_of_verify h
  obtain ⟨houter, halive⟩ := step_of_end hi hstep
  -- behind a jump of the block the verifier is in the state that the dead frame leads to
  have hbehind : ∀ front jump behind, before = front ++ jump :: behind → isJump jump = true →
      behind.foldlM depthAfter? 0 = some 0 →
      behind.foldlM (step ctx) ⟨deadFrame, s.outer⟩ = .ok s := by
    rintro front jump behind rfl hjump hdepth
    rw [List.foldlM_append, bind_eq_ok] at hs
    obtain ⟨mid, -, hrest⟩ := hs
    rw [List.foldlM_cons, bind_eq_ok] at hrest
    obtain ⟨mid', hmid, hrest⟩ := hrest
    obtain rfl := step_of_jump hjump hmid
    obtain ⟨inner, hs, hinner⟩ := outer_of_depthAfter [] hdepth hrest
    rw [hs, List.length_eq_zero_iff.mp hinner]
    exact hrest
  refine ⟨s, s', hs, hstep, houter, ?_, ?_⟩
  · intro hleft
    have hdead : s.dead[0]? = some true := by
      simp [State.dead, halive hleft]
    obtain ⟨front, jump, behind, heq, hjump, hdepth⟩ := exists_jump hs hdead
    exact ⟨front, jump, behind, s, heq, hjump, hdepth, hbehind front jump behind heq hjump hdepth,
      hleft⟩
  · rintro ⟨front, jump, behind, dead, heq, hjump, hdepth, hrun, hleft⟩
    obtain rfl := Except.ok.inj (hrun.symm.trans (hbehind front jump behind heq hjump hdepth))
    exact hleft

/-- A procedure without parameters. -/
def procedure : Context := { function := "run", result := none, slots := {} }

/-- A constant above a block that is left at once; its dead code opens and closes a loop and pushes a
second constant. -/
def leftInside : List Instruction :=
  [.const (.i64 5), .control .block none 0, .control .br none 0, .control .loop none 0,
    .control .endBlock none 0, .const (.i32 1)].map (Instruction.mk .unknown)

/-- The second constant is left at the `END` and dropped there; the first one stays. -/
theorem leftover_of_leftInside :
    verify { procedure with result := some (.value .i64) }
        (leftInside ++ [⟨.unknown, .control .endBlock none 0⟩]) = .ok () ∧
      ∃ s s' : State,
        leftInside.foldlM (step { procedure with result := some (.value .i64) }) {} = .ok s ∧
        s.current.operands ≠ [] ∧ s.outer = s'.current :: s'.outer ∧
        s'.current.operands = [.value .i64] := by
  have hverify : verify { procedure with result := some (.value .i64) }
      (leftInside ++ [⟨.unknown, .control .endBlock none 0⟩]) = .ok () := rfl
  obtain ⟨s, s', hs, hstep, houter, hiff⟩ := leftover_iff_dead rfl hverify
  refine ⟨hverify, s, s', hs, hiff.mpr ?_, houter, ?_⟩
  · cases hs
    exact ⟨leftInside.take 2, leftInside[2], leftInside.drop 3, _, rfl, rfl, rfl, rfl, by decide⟩
  · cases hs
    cases hstep
    rfl

/-- A block whose dead code pushes a constant. -/
def leftBehind : List Instruction :=
  [.control .block none 0, .control .unreachable none 0, .const (.i32 1),
    .control .endBlock none 0].map (Instruction.mk .unknown)

/-- The block is accepted although the constant is above the entry height of the closed frame. -/
theorem leftover_in_leftBehind : verify procedure leftBehind = .ok () ∧
    (leftBehind.take 3).foldlM (step procedure) {} = .ok ⟨⟨[.i32], true⟩, [{}]⟩ ∧
    leftBehind.drop 3 = [⟨.unknown, .control .endBlock none 0⟩] := by
  decide +kernel

/-! ### Labels of branches -/

/-- The control instruction with another label; any other instruction stays as it is. -/
def relabel (i : Instruction) (depth : Nat) : Instruction :=
  match i.kind with
  | .control op ty _ => ⟨i.position, .control op ty depth⟩
  | _ => i

/-- The frame that a branch with a label leaves: that of an open block, or the one of the function. -/
def State.label? (s : State) (depth : Nat) : Option Frame := (s.current :: s.outer)[depth]?

theorem step_relabel (ctx : Context) (s : State) (i : Instruction) (depth : Nat) :
    step ctx s (relabel i depth) = step ctx s i := by
  obtain ⟨position, kind⟩ := i
  cases kind with
  | control op ty depth' => cases op <;> rfl
  | _ => rfl

theorem foldlM_step_relabel {body body' : List Instruction}
    (h : List.Forall₂ (fun i i' => ∃ depth, i' = relabel i depth) body body') (s : State) :
    body'.foldlM (step ctx) s = body.foldlM (step ctx) s := by
  induction h generalizing s with
  | nil => rfl
  | cons hi _ ih =>
    obtain ⟨depth, rfl⟩ := hi
    rw [List.foldlM_cons, List.foldlM_cons, step_relabel]
    exact congrArg _ (funext ih)

theorem length_outer_of_run {code : List Instruction} {s s' : State}
    (h : code.foldlM (step ctx) s = .ok s') :
    s'.outer.length = code.foldl openAfter s.outer.length := by
  induction code generalizing s with
  | nil =>
    cases h
    rfl
  | cons i rest ih =>
    rw [List.foldlM_cons, bind_eq_ok] at h
    obtain ⟨mid, hstep, hrest⟩ := h
    rw [List.foldl_cons, ← length_outer_step hstep]
    exact ih hrest

theorem isSome_label? (s : State) (depth : Nat) :
    (s.label? depth).isSome = true ↔ depth ≤ s.outer.length := by
  unfold State.label?
  rw [isSome_getElem?, List.length_cons]
  exact Nat.lt_succ_iff

/-- **Labels are not verified.** Bodies that differ only in labels have the same verdict. Where an
instruction of an accepted body stands, the verifier has as many frames open as there are open blocks,
so a label has a target there exactly if it is not larger than their number. -/
theorem verify_ignores_depths (ctx : Context) (body : List Instruction) :
    (∀ body', List.Forall₂ (fun i i' => ∃ depth, i' = relabel i depth) body body' →
      verify ctx body' = verify ctx body) ∧
    (verify ctx body = .ok () → ∀ before i after, body = before ++ i :: after →
      ∃ s, before.foldlM (step ctx) {} = .ok s ∧
        ∀ depth, (s.label? depth).isSome = true ↔ depth ≤ before.foldl openAfter 0) := by
  refine ⟨fun body' hbody' => ?_, ?_⟩
  · unfold verify
    rw [foldlM_step_relabel hbody']
  · rintro hverify before i after rfl
    obtain ⟨s, s', hs, -⟩ := exists_step_of_verify hverify
    refine ⟨s, hs, fun depth => ?_⟩
    rw [isSome_label?, length_outer_of_run hs]
    rfl

/-- A block with a conditional branch to a label. -/
def branching (depth : Nat) : List Instruction :=
  [.control .block none 0, .const (.i32 1), .control .brIf none depth,
    .control .endBlock none 0].map (Instruction.mk .unknown)

/-- The branch is accepted with the label of the function and with one that has no target. -/
theorem verify_ignores_depths_branching :
    verify procedure (branching 1) = .ok () ∧ verify procedure (branching 3) = .ok () ∧
      ∃ s : State, ((branching 3).take 2).foldlM (step procedure) {} = .ok s ∧
        (s.label? 1).isSome = true ∧ ¬ (s.label? 3).isSome = true := by
  have hthree : verify procedure (branching 3) = .ok () := rfl
  obtain ⟨hsame, hlabels⟩ := verify_ignores_depths procedure (branching 3)
  have hrelabelled : List.Forall₂ (fun i i' => ∃ depth, i' = relabel i depth) (branching 3)
      (branching 1) :=
    .cons ⟨0, rfl⟩ (.cons ⟨0, rfl⟩ (.cons ⟨1, rfl⟩ (.cons ⟨0, rfl⟩ .nil)))
  obtain ⟨s, hs, hlabel⟩ := hlabels hthree ((branching 3).take 2) _ _ rfl
  refine ⟨(hsame _ hrelabelled).trans hthree, hthree, s, hs, (hlabel 1).mpr (by decide), ?_⟩
  rw [hlabel 3]
  decide

/-- A body with one open block can branch past the function. -/
theorem branch_without_target : verify procedure (branching 3) = .ok () ∧
    (branching 3)[2]?.bind branchDepth? = some 3 ∧
    ((branching 3).take 2).foldl openAfter 0 = 1 := by
  decide +kernel

end WasmBackend.Verifier
