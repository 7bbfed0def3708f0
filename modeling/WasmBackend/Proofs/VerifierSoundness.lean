import WasmBackend.Proofs.Execution

/-! # Verified code runs safely

A body that the verifier accepts keeps the stack discipline along every run, provided its branches
name blocks that are open where they stand.

The verifier passes over the code once, a run jumps back and out of blocks. What ties them together
is `Simulates`: the operands of a run are those of the verifier's frames, every open frame can be
reached, the verifier accepts what is left of the code, and it also accepts the code at which a
branch to a label goes on, from the frames that are open there. A step of a run keeps this
(`simulates_next`), because nothing inside a block touches the frames around it
(`accepts_afterEnd`). -/

namespace WasmBackend.Execution

open Verifier

variable {ctx : Verifier.Context}

/-! ### Leaving a block -/

/-- An accepted instruction that opens a block puts the current frame on those around it, one that
closes a block takes the innermost of them back, and any other keeps them. -/
theorem step_outer {s s' : State} {i : Instruction} (h : step ctx s i = .ok s') :
    match nesting i with
    | .opens => ∃ frame, s' = ⟨{}, frame :: s.outer⟩
    | .closes => s.outer = s'.current :: s'.outer
    | .keeps => s'.outer = s.outer := by
  obtain ⟨-, pops, frame, pushed, -, -, -, h⟩ := step_eq_ok.mp h
  unfold nesting
  rcases hop : i.controlOp? with _ | op <;> rw [hop] at h
  · cases h
    rfl
  · cases op with
    | block => cases h; exact ⟨_, rfl⟩
    | loop => cases h; exact ⟨_, rfl⟩
    | endBlock =>
      simp only [Verifier.control] at h
      split at h
      · cases h
      · next enclosing outer houter =>
        split_ifs at h
        cases h
        exact houter
    | _ => cases h; rfl

/-- **Code inside a block does not touch the frames around it**: what the verifier accepts inside,
it accepts after the `END`, from the frame in which the block was opened. -/
theorem accepts_afterEnd {enclosing : Frame} {outer : List Frame} :
    ∀ {code : List Instruction} {current : Frame} (inner : List Frame),
      Accepts ctx ⟨current, inner ++ enclosing :: outer⟩ code →
        Accepts ctx ⟨enclosing, outer⟩ (afterEnd inner.length code)
  | [], current, inner, h => by
    have := (finish_eq_ok (accepts_nil.mp h)).1
    simp at this
  | i :: code, current, inner, h => by
    obtain ⟨⟨current', outer'⟩, hstep, hrest⟩ := accepts_cons.mp h
    have hout := step_outer hstep
    unfold afterEnd
    rcases hn : nesting i <;> simp only [hn] at hout ⊢
    · obtain ⟨frame, hs'⟩ := hout
      cases hs'
      exact accepts_afterEnd (frame :: inner) hrest
    · cases inner with
      | nil =>
        cases hout
        exact hrest
      | cons f inner =>
        cases hout
        exact accepts_afterEnd inner hrest
    · subst hout
      exact accepts_afterEnd inner hrest

theorem branchesInScope_afterEnd {opened : Nat} :
    ∀ {code : List Instruction} {depth : Nat},
      branchesInScope (opened + depth + 1) code = true →
        branchesInScope opened (afterEnd depth code) = true
  | [], depth, _ => rfl
  | i :: code, depth, h => by
    simp only [branchesInScope, openAfter, Bool.and_eq_true] at h
    unfold afterEnd
    rcases hn : nesting i <;> simp only [hn] at h ⊢
    · exact branchesInScope_afterEnd h.2
    · cases depth with
      | zero => exact h.2
      | succ depth => exact branchesInScope_afterEnd h.2
    · exact branchesInScope_afterEnd h.2

/-! ### The simulation -/

/-- Number of operands in some frames. -/
def operandCount (frames : List Frame) : Nat := (frames.flatMap Frame.operands).length

/-- The verifier accepts the code at which a branch to the label goes on, from the frames that are
open there: those around the block, and for a loop an empty one of its own. -/
def Label.Accepted (ctx : Verifier.Context) (l : Label) (enclosing : Frame)
    (outer : List Frame) : Prop :=
  if l.isLoop then
    Accepts ctx ⟨{}, enclosing :: outer⟩ l.target ∧ branchesInScope (outer.length + 1) l.target
  else Accepts ctx ⟨enclosing, outer⟩ l.target ∧ branchesInScope outer.length l.target

/-- The labels of a run belong to the frames around the innermost one. -/
inductive Labelled (ctx : Verifier.Context) : List Label → List Frame → Prop
  | nil : Labelled ctx [] []
  | cons {l : Label} {labels : List Label} {enclosing : Frame} {outer : List Frame}
      (height : l.height = operandCount (enclosing :: outer))
      (accepted : l.Accepted ctx enclosing outer) (rest : Labelled ctx labels outer) :
      Labelled ctx (l :: labels) (enclosing :: outer)

/-- The frames of the verifier are those of the run, and all of them can be reached. -/
structure Aligned (ctx : Verifier.Context) (s : State) (c : Config) : Prop where
  reachable : ∀ frame ∈ s.current :: s.outer, frame.unreachable = false
  stack : c.stack = (s.current :: s.outer).flatMap Frame.operands
  labelled : Labelled ctx c.labels s.outer

/-- The verifier, in a state, is where the run is, and accepts the code that is left. -/
structure Simulates (ctx : Verifier.Context) (s : State) (c : Config) : Prop
    extends Aligned ctx s c where
  accepts : Accepts ctx s c.code
  inScope : branchesInScope s.outer.length c.code

theorem simulates_start {body : List Instruction} (h : verify ctx body = .ok ())
    (hscope : branchesInScope 0 body) : Simulates ctx {} (.start body) where
  reachable := by simp
  stack := rfl
  labelled := .nil
  accepts := accepts_iff_verify.mpr h
  inScope := hscope

theorem Labelled.length_eq {labels : List Label} {outer : List Frame}
    (h : Labelled ctx labels outer) : labels.length = outer.length := by
  induction h with
  | nil => rfl
  | cons _ _ _ ih => simp [ih]

theorem Labelled.drop {labels : List Label} {outer : List Frame} (h : Labelled ctx labels outer)
    (depth : Nat) : Labelled ctx (labels.drop depth) (outer.drop depth) := by
  induction h generalizing depth with
  | nil => simpa using .nil
  | cons height accepted rest ih =>
    cases depth with
    | zero => exact .cons height accepted rest
    | succ depth => exact ih depth

theorem Labelled.base_eq {c : Config} {outer : List Frame} (h : Labelled ctx c.labels outer) :
    c.base = operandCount outer := by
  unfold Config.base
  generalize c.labels = labels at h
  cases h with
  | nil => rfl
  | cons height _ _ => exact height

/-! ### Operands of an instruction -/

/-- The verifier's frame and the run, once the operands of an instruction are popped and pushed. -/
theorem Aligned.afterOperands {s : State} {c : Config} (h : Aligned ctx s c) {frame : Frame}
    {pops popped : List OperandType} (hframe : frame.unreachable = false)
    (hpopped : s.current.operands = popped ++ frame.operands) (hfits : Fits pops.reverse popped)
    (pushed : Option OperandType) (code : List Instruction) :
    Aligned ctx { s with current := push frame pushed }
      { c with code, stack := Config.afterOperands c.stack pops pushed } where
  reachable := by
    intro f hf
    rcases List.mem_cons.mp hf with rfl | hf
    · rw [unreachable_push, hframe]
    · exact h.reachable f (List.mem_cons_of_mem _ hf)
  stack := by
    have hlen : pops.length = popped.length := by simpa using hfits.length_eq
    simp only [Config.afterOperands, h.stack, List.flatMap_cons, hpopped, hlen, operands_push,
      List.append_assoc, List.drop_left]
  labelled := h.labelled

theorem length_outer_step {s s' : State} {i : Instruction} (h : step ctx s i = .ok s') :
    s'.outer.length = openAfter s.outer.length i := by
  have hout := step_outer h
  unfold openAfter
  rcases hn : nesting i <;> simp only [hn] at hout ⊢
  · obtain ⟨frame, rfl⟩ := hout
    rfl
  · simp [hout]
  · rw [hout]

/-- The verifier accepts the instruction at which the run is: its operands are on top of the stack,
and what is left of the code is accepted after it. -/
theorem Simulates.accepted {s : State} {c : Config} {i : Instruction} {rest : List Instruction}
    (h : Simulates ctx s c) (hcode : c.code = i :: rest) :
    checkReturn ctx i = .ok () ∧ ∃ pops popped frame pushed s',
      i.popTypes ctx.slots = .ok pops ∧ i.pushType ctx.slots = .ok pushed ∧
      s.current.operands = popped ++ frame.operands ∧ Fits pops.reverse popped ∧
      frame.unreachable = false ∧
      (match i.controlOp? with
        | some op => control ctx i.position op { s with current := push frame pushed }
        | none => .ok { s with current := push frame pushed }) = .ok s' ∧
      Accepts ctx s' rest ∧ branchesInScope s'.outer.length rest := by
  have haccepts := h.accepts
  have hscope := h.inScope
  rw [hcode] at haccepts hscope
  obtain ⟨s', hstep, hrest⟩ := accepts_cons.mp haccepts
  have hlen := length_outer_step hstep
  obtain ⟨hret, pops, frame, pushed, hpops, hpopAll, hpushed, hcontrol⟩ := step_eq_ok.mp hstep
  obtain ⟨hflag, hpopped⟩ := popAll_eq_ok hpopAll
  have hcurrent := h.reachable s.current (by simp)
  obtain ⟨popped, hoperands, hfits⟩ := hpopped hcurrent
  refine ⟨hret, pops, popped, frame, pushed, s', hpops, hpushed, hoperands, hfits,
    hflag.trans hcurrent, hcontrol, hrest, ?_⟩
  simp only [branchesInScope, Bool.and_eq_true] at hscope
  rw [hlen]
  exact hscope.2

/-! ### Steps -/

/-- **A branch** goes on where the verifier accepts the code. -/
theorem simulates_branch {s : State} {c d : Config} {depth : Nat} (h : Aligned ctx s c)
    (hd : c.branch depth = some d) : ∃ s', Simulates ctx s' d := by
  have hdrop := h.labelled.drop depth
  unfold Config.branch at hd
  split at hd
  · cases hd
  · next l labels hl =>
    cases hd
    rw [hl] at hdrop
    rcases hout : s.outer.drop depth with _ | ⟨enclosing, outer⟩ <;> rw [hout] at hdrop
    · cases hdrop
    rcases hdrop with _ | ⟨height, accepted, rest⟩
    have hframes : s.outer = s.outer.take depth ++ enclosing :: outer := by
      rw [← hout, List.take_append_drop]
    have hcut : c.stack.drop (c.stack.length - l.height) =
        (enclosing :: outer).flatMap Frame.operands := by
      have hsplit : c.stack = (s.current :: s.outer.take depth).flatMap Frame.operands ++
          (enclosing :: outer).flatMap Frame.operands := by
        rw [h.stack, ← List.flatMap_append, List.cons_append, ← hframes]
      rw [hsplit, height, operandCount, List.length_append, Nat.add_sub_cancel, List.drop_left]
    have hreach : ∀ frame ∈ enclosing :: outer, frame.unreachable = false := by
      intro frame hframe
      refine h.reachable frame (List.mem_cons_of_mem _ ?_)
      rw [hframes]
      exact List.mem_append_right _ hframe
    have haccepted := accepted
    unfold Label.Accepted at accepted
    split_ifs at accepted with hloop
    · refine ⟨⟨{}, enclosing :: outer⟩, ⟨?_, hcut, ?_⟩, accepted.1, accepted.2⟩
      · intro frame hframe
        rcases List.mem_cons.mp hframe with rfl | hframe
        · rfl
        · exact hreach frame hframe
      · rw [if_pos hloop]
        exact .cons height haccepted rest
    · refine ⟨⟨enclosing, outer⟩, ⟨hreach, hcut, ?_⟩, accepted.1, accepted.2⟩
      rw [if_neg hloop]
      exact rest

/-- **A control operator** keeps the verifier where the run is. -/
theorem simulates_control {s s' : State} {c d : Config} {position : CodePosition} {op : ControlOp}
    {depth : Nat} (h : Aligned ctx s c) (hs : Verifier.control ctx position op s = .ok s')
    (haccepts : Accepts ctx s' c.code) (hscope : branchesInScope s'.outer.length c.code)
    (hd : d ∈ c.control op depth) : ∃ s', Simulates ctx s' d := by
  cases op with
  | block =>
    cases hs
    cases List.mem_singleton.mp hd
    refine ⟨⟨{}, s.current :: s.outer⟩, ⟨?_, h.stack, .cons ?_ ?_ h.labelled⟩, haccepts, hscope⟩
    · simpa using h.reachable
    · rw [h.stack, operandCount]
    · rw [Label.Accepted, if_neg (by simp)]
      exact ⟨accepts_afterEnd [] haccepts, branchesInScope_afterEnd hscope⟩
  | loop =>
    cases hs
    cases List.mem_singleton.mp hd
    refine ⟨⟨{}, s.current :: s.outer⟩, ⟨?_, h.stack, .cons ?_ ?_ h.labelled⟩, haccepts, hscope⟩
    · simpa using h.reachable
    · rw [h.stack, operandCount]
    · rw [Label.Accepted, if_pos rfl]
      exact ⟨haccepts, hscope⟩
  | endBlock =>
    cases List.mem_singleton.mp hd
    simp only [Verifier.control] at hs
    rcases hout : s.outer with _ | ⟨enclosing, outer⟩ <;> rw [hout] at hs
    · cases hs
    have hreach := h.reachable s.current (by simp)
    simp only [hreach, Bool.false_or] at hs
    split_ifs at hs with hempty
    cases hs
    refine ⟨_, ⟨?_, ?_, ?_⟩, haccepts, hscope⟩
    · intro frame hframe
      exact h.reachable frame (List.mem_cons_of_mem _ (hout ▸ hframe))
    · rw [h.stack, List.flatMap_cons, List.isEmpty_iff.mp hempty, hout, List.nil_append]
    · simpa [hout] using h.labelled.drop 1
  | br => exact simulates_branch h (by simpa [Config.control] using hd)
  | brIf =>
    cases hs
    rcases List.mem_cons.mp hd with rfl | hd
    · exact ⟨_, h, haccepts, hscope⟩
    · exact simulates_branch h (by simpa using hd)
  | drop =>
    cases hs
    cases List.mem_singleton.mp hd
    exact ⟨_, h, haccepts, hscope⟩
  | ret => cases hd
  | unreachable => cases hd

/-- **A step of a run** keeps the verifier where the run is. -/
theorem simulates_next {s : State} {c d : Config} (h : Simulates ctx s c)
    (hd : d ∈ c.next ctx.slots) : ∃ s', Simulates ctx s' d := by
  rcases hcode : c.code with _ | ⟨i, rest⟩
  · simp [Config.next, hcode] at hd
  obtain ⟨-, pops, popped, frame, pushed, s', hpops, hpushed, hpopped, hfits, hframe, hs',
    haccepts, hscope⟩ := h.accepted hcode
  have hon := h.toAligned.afterOperands hframe hpopped hfits pushed rest
  simp only [Config.next, hcode, hpops, hpushed, Config.proceed] at hd
  obtain ⟨position, kind⟩ := i
  cases kind with
  | control op ty depth => exact simulates_control hon hs' haccepts hscope hd
  | _ =>
    cases hs'
    cases List.mem_singleton.mp hd
    exact ⟨_, hon, haccepts, hscope⟩

theorem simulates_of_reaches {body : List Instruction} (h : verify ctx body = .ok ())
    (hscope : branchesInScope 0 body) {c : Config} (hc : Reaches ctx.slots (.start body) c) :
    ∃ s, Simulates ctx s c := by
  induction hc with
  | refl => exact ⟨_, simulates_start h hscope⟩
  | tail _ hnext ih =>
    obtain ⟨s, hs⟩ := ih
    exact simulates_next hs hnext

/-! ### Safety -/

theorem Aligned.take_stack {s : State} {c : Config} (h : Aligned ctx s c)
    {pops popped rest : List OperandType} (hpopped : s.current.operands = popped ++ rest)
    (hfits : Fits pops.reverse popped) :
    c.stack.take pops.length = popped ∧ c.base + pops.length ≤ c.stack.length := by
  have hlen : pops.length = popped.length := by simpa using hfits.length_eq
  have hstack : c.stack = popped ++ (rest ++ s.outer.flatMap Frame.operands) := by
    rw [h.stack, List.flatMap_cons, hpopped, List.append_assoc]
  refine ⟨by rw [hstack, hlen, List.take_left], ?_⟩
  rw [h.labelled.base_eq, hstack, hlen, operandCount]
  simp only [List.length_append]
  omega

theorem Aligned.isSome_branch {s : State} {c : Config} (h : Aligned ctx s c) {depth : Nat}
    (hdepth : depth < s.outer.length) : (c.branch depth).isSome := by
  have hlabels : c.labels.drop depth ≠ [] := by
    rw [Ne, List.drop_eq_nil_iff, h.labelled.length_eq]
    omega
  unfold Config.branch
  split
  · next hnil => exact absurd hnil hlabels
  · rfl

/-- A run that the verifier follows goes on, unless the next instruction ends it. -/
theorem Simulates.progress {s : State} {c : Config} {i : Instruction} {rest : List Instruction}
    (h : Simulates ctx s c) (hcode : c.code = i :: rest) (hstop : c.next ctx.slots = []) :
    i.controlOp? = some .ret ∨ i.controlOp? = some .unreachable := by
  obtain ⟨-, pops, popped, frame, pushed, s', hpops, hpushed, hpopped, hfits, hframe, -⟩ :=
    h.accepted hcode
  have hon := h.toAligned.afterOperands hframe hpopped hfits pushed rest
  have hscope := h.inScope
  simp only [hcode, branchesInScope, Bool.and_eq_true, branchDepth?] at hscope
  simp only [Config.next, hcode, hpops, hpushed, Config.proceed] at hstop
  obtain ⟨position, kind⟩ := i
  cases kind with
  | control op ty depth =>
    cases op with
    | br =>
      have hdepth : depth < s.outer.length := by simpa using hscope.1
      have hsome := hon.isSome_branch hdepth
      simp only [Config.control, Option.toList_eq_nil_iff] at hstop
      rw [hstop] at hsome
      cases hsome
    | ret => exact Or.inl rfl
    | unreachable => exact Or.inr rfl
    | _ => cases hstop
  | _ => cases hstop

theorem safe_of_simulates {s : State} {c : Config} (h : Simulates ctx s c) : Safe ctx c where
  operands := by
    intro i rest hcode
    obtain ⟨-, pops, popped, frame, -, -, hpops, -, hpopped, hfits, -⟩ := h.accepted hcode
    obtain ⟨htake, hbase⟩ := h.toAligned.take_stack hpopped hfits
    exact ⟨pops, hpops, hbase, htake.symm ▸ hfits⟩
  returned := by
    intro i rest hcode hop
    obtain ⟨hret, pops, popped, frame, -, -, hpops, -, hpopped, hfits, -⟩ := h.accepted hcode
    obtain ⟨htake, -⟩ := h.toAligned.take_stack hpopped hfits
    refine ⟨pops, hpops, ?_⟩
    have hresult : pops = ctx.result.toList.map OperandType.widened := by
      have := hpops.symm.trans (popTypes_of_return hop hret)
      cases hres : ctx.result <;> simpa [hres] using this
    rw [htake, ← fits_map_widened, ← hresult]
    have hsingle : pops.reverse = pops := by
      rw [hresult]
      cases ctx.result <;> rfl
    exact hsingle ▸ hfits
  result := by
    intro hcode
    have haccepts := h.accepts
    rw [hcode, accepts_nil] at haccepts
    obtain ⟨houter, hresult⟩ := finish_eq_ok haccepts
    have hlabels := h.labelled
    rw [houter] at hlabels
    refine ⟨List.length_eq_zero_iff.mp hlabels.length_eq, ?_⟩
    rw [h.stack, houter]
    simpa using hresult (h.reachable s.current (by simp))
  progress := by
    intro hstop
    rcases hcode : c.code with _ | ⟨i, rest⟩
    · exact Or.inl rfl
    · exact Or.inr ⟨i, rest, rfl, h.progress hcode hstop⟩

/-- **Verified code runs safely.** Along every run of a body that the verifier accepts and whose
branches are in scope, every instruction finds its operands above the innermost open block, every
`RETURN` takes the result of the function, and a run that comes to the end leaves the result. -/
theorem safe_of_verified {body : List Instruction} (hverify : verify ctx body = .ok ())
    (hscope : branchesInScope 0 body = true) {c : Config}
    (hrun : Reaches ctx.slots (.start body) c) : Safe ctx c := by
  obtain ⟨s, hs⟩ := simulates_of_reaches hverify hscope hrun
  exact safe_of_simulates hs

/-- Counts the parameter down to zero in a loop inside a block, and returns it. -/
def countdown : List Instruction :=
  [.control .block none 0, .control .loop none 0, .localVar .get 0 none, .numeric .eqz .i32,
    .control .brIf none 1, .localVar .get 0 none, .const (.i32 1), .numeric .sub .i32,
    .localVar .tee 0 none, .control .drop (some .i32) 0, .control .br none 0,
    .control .endBlock none 0, .control .endBlock none 0, .localVar .get 0 none,
    .control .ret (some .i32) 0].map (Instruction.mk ⟨-1, -1⟩)

/-- The function that counts down. -/
def countdownContext : Verifier.Context :=
  { function := "countdown", result := some .i32, slots := { types := [.i32], paramCount := 1 } }

/-- The run of the countdown that goes through the loop twice and leaves the block from inside it
comes to the `RETURN`, and takes the result there. -/
theorem countdown_returns : verify countdownContext countdown = .ok () ∧
    branchesInScope 0 countdown = true ∧ ∃ c : Config,
      Reaches countdownContext.slots (.start countdown) c ∧
      c.code.map Instruction.controlOp? = [some .ret] ∧ c.stack = [.i32] ∧
      Safe countdownContext c := by
  have hverify : verify countdownContext countdown = .ok () := rfl
  have hscope : branchesInScope 0 countdown = true := rfl
  obtain ⟨c, hc⟩ : ∃ c, (Config.start countdown).follow countdownContext.slots
      [0, 0, 0, 0, 0, 0, 0, 0, 0, 0, 0, 0, 0, 1, 0] = some c := ⟨_, rfl⟩
  have hrun := reaches_of_follow hc
  refine ⟨hverify, hscope, c, hrun, ?_, ?_, safe_of_verified hverify hscope hrun⟩ <;>
    (cases hc; rfl)

end WasmBackend.Execution
