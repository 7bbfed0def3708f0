import WasmBackend.Proofs.VerifierSteps

/-! # Blocks inserted into verified code

A body that the verifier accepts as a procedure can be put between the two ends of a block anywhere
in other code. Inside the block the verifier starts from an empty frame, as it does at the start of
a function, and what it does there is the same whatever frames are around the block (`step_above`,
`run_above`). The body leaves nothing behind, so that the `END` takes the verifier back to the state
in which the block was opened, and the verdict on the other code does not change
(`verify_insert_block`). -/

namespace WasmBackend.Verifier

/-! ### Names in messages -/

section Names

variable {function function' : String} {position : CodePosition} {frame frame' : Frame}

theorem pop_rename {expected : OperandType}
    (h : pop function position frame expected = .ok frame') :
    pop function' position frame expected = .ok frame' := by
  unfold pop at h ⊢
  split at h
  · split_ifs at h ⊢
    exact h
  · split_ifs at h ⊢
    exact h

theorem popAll_rename {expected : List OperandType}
    (h : popAll function position frame expected = .ok frame') :
    popAll function' position frame expected = .ok frame' := by
  unfold popAll at h ⊢
  generalize expected.reverse = types at h ⊢
  induction types generalizing frame with
  | nil => exact h
  | cons e rest ih =>
    rw [List.foldlM_cons, bind_eq_ok] at h ⊢
    obtain ⟨mid, hpop, hrest⟩ := h
    exact ⟨mid, pop_rename hpop, ih hrest⟩

end Names

/-! ### Frames around the code -/

/-- The state with more frames around it. -/
def State.above (s : State) (outer : List Frame) : State := ⟨s.current, s.outer ++ outer⟩

variable {ctx ctx' : Context} {s s' : State}

theorem control_above {position : CodePosition} {op : ControlOp}
    (h : control ctx position op s = .ok s') (outer : List Frame) :
    control ctx' position op (s.above outer) = .ok (s'.above outer) := by
  cases op with
  | endBlock =>
    simp only [control] at h
    split at h
    · cases h
    · next enclosing rest houter =>
      split_ifs at h with hclosed
      cases h
      simp only [control, State.above, houter, List.cons_append, if_pos hclosed]
  | _ =>
    cases h
    rfl

/-- **One instruction with more frames around it.** Only a `RETURN` asks for the result of the
function. -/
theorem step_above (hslots : ctx'.slots = ctx.slots) {i : Instruction}
    (hreturn : i.controlOp? ≠ some .ret) (h : step ctx s i = .ok s') (outer : List Frame) :
    step ctx' (s.above outer) i = .ok (s'.above outer) := by
  obtain ⟨-, pops, frame, pushed, hpops, hpop, hpushed, hcontrol⟩ := step_eq_ok.mp h
  have hcheck : checkReturn ctx' i = .ok () := by
    unfold checkReturn
    split
    · next ty depth hkind =>
      refine absurd ?_ hreturn
      rw [Instruction.controlOp?, hkind]
    · rfl
  refine step_eq_ok.mpr ⟨hcheck, pops, frame, pushed, ?_, popAll_rename hpop, ?_, ?_⟩
  · rw [hslots]
    exact hpops
  · rw [hslots]
    exact hpushed
  · rcases hop : i.controlOp? with _ | op
    · rw [hop] at hcontrol
      cases hcontrol
      rfl
    · rw [hop] at hcontrol
      exact control_above hcontrol outer

/-- **Code with more frames around it.** -/
theorem run_above (hslots : ctx'.slots = ctx.slots) {code : List Instruction}
    (hreturn : ∀ i ∈ code, i.controlOp? ≠ some .ret) (h : code.foldlM (step ctx) s = .ok s')
    (outer : List Frame) : code.foldlM (step ctx') (s.above outer) = .ok (s'.above outer) := by
  induction code generalizing s with
  | nil =>
    cases h
    rfl
  | cons i rest ih =>
    rw [List.forall_mem_cons] at hreturn
    rw [List.foldlM_cons, bind_eq_ok] at h ⊢
    obtain ⟨mid, hstep, hrest⟩ := h
    exact ⟨mid.above outer, step_above hslots hreturn.1 hstep outer, ih hreturn.2 hrest⟩

/-! ### Blocks -/

theorem finish_of_procedure (hresult : ctx.result = none) (h : finish ctx s = .ok ()) :
    s.outer = [] ∧ s.current.operands = [] := by
  simp only [finish, hresult] at h
  split_ifs at h with houter hbalanced
  refine ⟨List.isEmpty_iff.mp houter, ?_⟩
  rw [Bool.or_eq_true, Bool.and_eq_true, Bool.and_eq_true] at hbalanced
  rcases hbalanced with ⟨hlength, -⟩ | ⟨-, hempty⟩
  · simpa using (of_decide_eq_true hlength).symm
  · simpa using hempty

/-- The instruction opens a block. -/
def Opens (i : Instruction) : Prop :=
  ∃ depth, i.kind = .control .block none depth ∨ i.kind = .control .loop none depth

/-- The instruction closes a block. -/
def Closes (i : Instruction) : Prop := ∃ depth, i.kind = .control .endBlock none depth

theorem step_of_opens {i : Instruction} (h : Opens i) (s : State) :
    step ctx s i = .ok (State.above {} (s.current :: s.outer)) := by
  obtain ⟨position, kind⟩ := i
  obtain ⟨depth, rfl | rfl⟩ := h <;> rfl

theorem step_of_closes {i : Instruction} (h : Closes i) {frame : Frame}
    (hempty : frame.operands = []) (s : State) :
    step ctx ⟨frame, s.current :: s.outer⟩ i = .ok s := by
  obtain ⟨position, kind⟩ := i
  obtain ⟨depth, rfl⟩ := h
  have hclosed : (frame.unreachable || frame.operands.isEmpty) = true := by
    rw [hempty, List.isEmpty_nil, Bool.or_true]
  exact step_eq_ok.mpr ⟨rfl, [], frame, none, rfl, rfl, rfl, if_pos hclosed⟩

/-- **A block around a procedure takes the verifier back to the state before it.** -/
theorem run_block {body : List Instruction} (hbody : verify ctx body = .ok ())
    (hresult : ctx.result = none) (hreturn : ∀ i ∈ body, i.controlOp? ≠ some .ret)
    (hslots : ctx'.slots = ctx.slots) {opening closing : Instruction} (hopening : Opens opening)
    (hclosing : Closes closing) (s : State) :
    (opening :: body ++ [closing]).foldlM (step ctx') s = .ok s := by
  obtain ⟨last, hrun, hfinish⟩ := bind_eq_ok.mp hbody
  obtain ⟨houter, hempty⟩ := finish_of_procedure hresult hfinish
  have hinside := run_above hslots hreturn hrun (s.current :: s.outer)
  have hlast : last.above (s.current :: s.outer) = ⟨last.current, s.current :: s.outer⟩ := by
    rw [State.above, houter, List.nil_append]
  rw [hlast] at hinside
  rw [List.cons_append, List.foldlM_cons, step_of_opens hopening]
  show (body ++ [closing]).foldlM (step ctx') (State.above {} (s.current :: s.outer)) = .ok s
  rw [List.foldlM_append, hinside]
  show [closing].foldlM (step ctx') ⟨last.current, s.current :: s.outer⟩ = .ok s
  rw [List.foldlM_cons, step_of_closes hclosing hempty]
  rfl

/-- **Blocks around procedures can be inserted anywhere.** If the verifier accepts a body without
`RETURN` as a procedure, then code in which the body stands as a block has the verdict of the code
without it. This is so for every result, with every local as the body has it, and wherever the block
is: inside other blocks, above other operands or in dead code. -/
theorem verify_insert_block {function : String} {slots : SlotTable} {body : List Instruction}
    (hbody : verify ⟨function, none, slots⟩ body = .ok ())
    (hreturn : ∀ i ∈ body, i.controlOp? ≠ some .ret) {opening closing : Instruction}
    (hopening : Opens opening) (hclosing : Closes closing) (function' : String)
    (result : Option OperandType) (before after : List Instruction) :
    verify ⟨function', result, slots⟩ (before ++ (opening :: body ++ [closing]) ++ after) =
      verify ⟨function', result, slots⟩ (before ++ after) := by
  have hblock : ∀ s, (opening :: body ++ [closing]).foldlM (step ⟨function', result, slots⟩) s =
      .ok s := by
    intro s
    refine run_block hbody rfl hreturn ?_ hopening hclosing s
    rfl
  unfold verify
  rw [List.append_assoc, List.foldlM_append, List.foldlM_append]
  rcases before.foldlM (step ⟨function', result, slots⟩) {} with e | s
  · rfl
  · show ((opening :: body ++ [closing] ++ after).foldlM (step ⟨function', result, slots⟩) s >>=
        finish _) = (after.foldlM (step ⟨function', result, slots⟩) s >>= finish _)
    rw [List.foldlM_append, hblock]
    rfl

/-- The start of a loop. -/
def loopStart : Instruction := ⟨.unknown, .control .loop none 0⟩

/-- The end of a block. -/
def blockEnd : Instruction := ⟨.unknown, .control .endBlock none 0⟩

/-- A constant, and a block above it that is left with another constant on the stack. -/
def leftEarly : List Instruction :=
  [.const (.i64 5), .control .block none 0, .const (.i32 1), .control .br none 0].map
    (Instruction.mk .unknown)

/-- A procedure with a block whose dead code drops what is not there, and with a branch. -/
def detour : List Instruction :=
  [.control .block none 0, .control .unreachable none 0, .control .drop (some .i32) 0,
    .control .endBlock none 0, .const (.i32 1), .control .brIf none 0].map (Instruction.mk .unknown)

/-- The procedure is inserted as a loop into the dead code of the block. -/
theorem verify_insert_block_detour :
    verify ⟨"detour", none, {}⟩ detour = .ok () ∧
    verify ⟨"run", some (.value .i64), {}⟩ (leftEarly ++ [blockEnd]) = .ok () ∧
    verify ⟨"run", some (.value .i64), {}⟩
      (leftEarly ++ (loopStart :: detour ++ [blockEnd]) ++ [blockEnd]) = .ok () := by
  have hdetour : verify ⟨"detour", none, {}⟩ detour = .ok () := rfl
  have hplain : verify ⟨"run", some (.value .i64), {}⟩ (leftEarly ++ [blockEnd]) = .ok () := rfl
  have hloop : Opens loopStart := ⟨0, .inr rfl⟩
  have hend : Closes blockEnd := ⟨0, rfl⟩
  refine ⟨hdetour, hplain, ?_⟩
  rw [verify_insert_block hdetour (by decide) hloop hend]
  exact hplain

end WasmBackend.Verifier
