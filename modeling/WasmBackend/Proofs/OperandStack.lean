import WasmBackend.Proofs.VerifierSteps

/-! # One stack for all blocks

The verifier keeps the operands of each open block apart. They can also be kept on one stack, with the
height at which each block was opened: code inside a block pops down to that height, and the stack is
cut back to it where the block ends or can be reached no more (`OperandStack.step`).

The operands of the blocks, one behind the other, are that stack, and the operands of the blocks
around a block are as many as its height (`Verifier.State.flat`). Every instruction keeps this
(`OperandStack.step_flat`), so both give the same verdict on every body, with the same error
(`OperandStack.verify_eq`). -/

namespace WasmBackend

namespace OperandStack

/-- An open block: the height of the stack where it was opened. -/
structure Block where
  height : Nat := 0
  unreachable : Bool := false

/-- The stack, top first, with the innermost open block and those around it. -/
structure State where
  stack : List OperandType := []
  current : Block := {}
  outer : List Block := []

/-- What is left of a stack that is cut back to a height. -/
def truncate (stack : List OperandType) (height : Nat) : List OperandType :=
  stack.drop (stack.length - height)

/-- What stands on a stack above a height, in the order in which it was pushed. -/
def above (stack : List OperandType) (height : Nat) : List OperandType :=
  stack.reverse.drop height

/-- Pops one operand of an expected type, if the block has one. -/
def pop (function : String) (position : CodePosition) (block : Block) (stack : List OperandType)
    (expected : OperandType) : Except CompileError (List OperandType) :=
  match stack with
  | found :: rest =>
    if block.height < stack.length then
      if Verifier.compatible expected found then .ok rest
      else .error (.stackTypeMismatch function position (some expected) (some found))
    else if block.unreachable then .ok stack else .error (.stackUnderflow function position)
  | [] => if block.unreachable then .ok stack else .error (.stackUnderflow function position)

/-- Pops operands of expected types, the last one first. -/
def popAll (function : String) (position : CodePosition) (block : Block)
    (stack : List OperandType) (expected : List OperandType) :
    Except CompileError (List OperandType) :=
  expected.reverse.foldlM (pop function position block) stack

/-- What a control operator does once its operands are popped. -/
def control (ctx : Verifier.Context) (position : CodePosition) (op : ControlOp) (s : State) :
    Except CompileError State :=
  match op with
  | .block | .loop =>
    .ok { s with current := { height := s.stack.length }, outer := s.current :: s.outer }
  | .endBlock =>
    match s.outer with
    | [] => .error (.internal .endWithoutBlock (some position))
    | enclosing :: outer =>
      if !s.current.unreachable && s.stack.length != s.current.height then
        .error (.stackNotBalanced (.block ctx.function position) []
          (above s.stack s.current.height))
      else .ok { stack := truncate s.stack s.current.height, current := enclosing, outer }
  | .ret | .br | .unreachable =>
    .ok { s with
      stack := truncate s.stack s.current.height
      current := { s.current with unreachable := true } }
  | .drop | .brIf => .ok s

/-- Verifies one instruction. -/
def step (ctx : Verifier.Context) (s : State) (i : Instruction) : Except CompileError State := do
  Verifier.checkReturn ctx i
  let pops ← i.popTypes ctx.slots
  let stack ← popAll ctx.function i.position s.current s.stack pops
  let pushed ← i.pushType ctx.slots
  let s := { s with stack := (pushed.map OperandType.widened).toList ++ stack }
  match i.controlOp? with
  | some op => control ctx i.position op s
  | none => return s

/-- Verifies the end of the body. -/
def finish (ctx : Verifier.Context) (s : State) : Except CompileError Unit :=
  if s.outer.isEmpty then
    let expected := (ctx.result.map OperandType.widened).toList
    let found := s.stack.reverse
    let balanced := found.length = expected.length &&
      (expected.zip found).all fun (e, f) => Verifier.compatible e f
    if !balanced && !(s.current.unreachable && s.stack.isEmpty) then
      .error (.stackNotBalanced (.function ctx.function) expected found)
    else .ok ()
  else .error (.ofFault (.blocksNotClosed s.outer.length ctx.function))

/-- Verifies a body. -/
def verify (ctx : Verifier.Context) (body : List Instruction) : Except CompileError Unit := do
  let s ← body.foldlM (step ctx) {}
  finish ctx s

end OperandStack

/-! ### The stack of some frames -/

namespace Verifier

/-- The operands of frames, innermost first. -/
def operandsOf (frames : List Frame) : List OperandType := frames.flatMap Frame.operands

/-- Open blocks on one stack. A block was opened above the operands of those around it. -/
def blocksOf : List Frame → List OperandStack.Block
  | [] => []
  | frame :: outer => ⟨(operandsOf outer).length, frame.unreachable⟩ :: blocksOf outer

/-- The same operands on one stack. -/
def State.flat (s : State) : OperandStack.State where
  stack := s.current.operands ++ operandsOf s.outer
  current := ⟨(operandsOf s.outer).length, s.current.unreachable⟩
  outer := blocksOf s.outer

end Verifier

namespace OperandStack

theorem truncate_append (operands below : List OperandType) :
    truncate (operands ++ below) below.length = below := by
  simp [truncate]

theorem above_append (operands below : List OperandType) :
    above (operands ++ below) below.length = operands.reverse := by
  simp [above]

theorem length_append_bne (operands below : List OperandType) :
    ((operands ++ below).length != below.length) = !operands.isEmpty := by
  cases operands with
  | nil => simp
  | cons found rest =>
    refine bne_iff_ne.mpr ?_
    rw [List.length_append, List.length_cons]
    omega

section Flat

variable (ctx : Verifier.Context) (s : Verifier.State)

theorem pop_append (function : String) (position : CodePosition) (frame : Verifier.Frame)
    (below : List OperandType) (expected : OperandType) :
    pop function position ⟨below.length, frame.unreachable⟩ (frame.operands ++ below) expected =
      (Verifier.pop function position frame expected).map fun f => f.operands ++ below := by
  obtain ⟨operands, unreachable⟩ := frame
  cases operands with
  | nil =>
    -- the block has no operand: none is popped, whatever stands below
    have hempty : pop function position ⟨below.length, unreachable⟩ below expected =
        if unreachable then .ok below else .error (.stackUnderflow function position) := by
      cases below <;> simp [pop]
    simp only [Verifier.pop, List.nil_append, hempty]
    split <;> rfl
  | cons found rest =>
    have hheight : below.length < (found :: rest ++ below).length := by
      rw [List.length_append, List.length_cons]
      omega
    simp only [pop, Verifier.pop, List.cons_append] at hheight ⊢
    rw [if_pos hheight]
    split <;> rfl

theorem popAll_append (function : String) (position : CodePosition) (frame : Verifier.Frame)
    (below expected : List OperandType) :
    popAll function position ⟨below.length, frame.unreachable⟩ (frame.operands ++ below) expected =
      (Verifier.popAll function position frame expected).map fun f => f.operands ++ below := by
  unfold popAll Verifier.popAll
  induction expected.reverse generalizing frame with
  | nil => rfl
  | cons ty rest ih =>
    rw [List.foldlM_cons, List.foldlM_cons, pop_append]
    rcases hpop : Verifier.pop function position frame ty with e | next
    · rfl
    · have hrest := ih next
      rw [(Verifier.pop_eq_ok hpop).1] at hrest
      exact hrest

theorem control_flat (position : CodePosition) (op : ControlOp) :
    control ctx position op s.flat =
      (Verifier.control ctx position op s).map Verifier.State.flat := by
  obtain ⟨⟨operands, unreachable⟩, outer⟩ := s
  cases op with
  | block | loop | drop | brIf => rfl
  | ret | br | unreachable =>
    simp only [control, Verifier.control, Verifier.State.flat, truncate_append]
    rfl
  | endBlock =>
    cases outer with
    | nil => rfl
    | cons enclosing outer =>
      simp only [control, Verifier.control, Verifier.State.flat, Verifier.blocksOf, truncate_append,
        above_append, length_append_bne, ← Bool.not_or]
      cases unreachable || operands.isEmpty <;> rfl

/-- **An instruction does the same to both stacks.** -/
theorem step_flat (i : Instruction) :
    step ctx s.flat i = (Verifier.step ctx s i).map Verifier.State.flat := by
  unfold step Verifier.step
  rcases Verifier.checkReturn ctx i with e | ⟨⟩
  · rfl
  rcases i.popTypes ctx.slots with e | pops
  · rfl
  have hpops : popAll ctx.function i.position s.flat.current s.flat.stack pops =
      (Verifier.popAll ctx.function i.position s.current pops).map fun f =>
        f.operands ++ Verifier.operandsOf s.outer :=
    popAll_append ctx.function i.position s.current (Verifier.operandsOf s.outer) pops
  simp only [bind, Except.bind, hpops]
  rcases hframe : Verifier.popAll ctx.function i.position s.current pops with e | frame
  · rfl
  rcases i.pushType ctx.slots with e | pushed
  · rfl
  have hflat : ({ s with current := Verifier.push frame pushed } : Verifier.State).flat =
      { s.flat with
        stack := (pushed.map OperandType.widened).toList ++
          (frame.operands ++ Verifier.operandsOf s.outer) } := by
    simp only [Verifier.State.flat, Verifier.operands_push, Verifier.unreachable_push,
      (Verifier.popAll_eq_ok hframe).1, List.append_assoc]
  simp only [Except.map, ← hflat]
  cases i.controlOp? with
  | none => rfl
  | some op => exact control_flat ctx _ i.position op

theorem finish_flat : finish ctx s.flat = Verifier.finish ctx s := by
  obtain ⟨⟨operands, unreachable⟩, outer⟩ := s
  cases outer with
  | nil =>
    have hstack : operands ++ Verifier.operandsOf [] = operands := List.append_nil _
    have hlength (m n : Nat) : decide (m = n) = decide (n = m) := decide_eq_decide.mpr eq_comm
    simp only [finish, Verifier.finish, Verifier.State.flat, Verifier.blocksOf, hstack,
      List.isEmpty_reverse, ← Bool.not_or, hlength operands.reverse.length, Bool.not_eq_true',
      ← Bool.not_eq_true, ite_not]
    rfl
  | cons enclosing outer =>
    have hopen : (Verifier.blocksOf outer).length = outer.length := by
      induction outer with
      | nil => rfl
      | cons frame outer ih => exact congrArg (· + 1) ih
    simp [finish, Verifier.finish, Verifier.State.flat, Verifier.blocksOf, hopen]

end Flat

/-- **One stack gives the same verdicts.** -/
theorem verify_eq (ctx : Verifier.Context) (body : List Instruction) :
    verify ctx body = Verifier.verify ctx body := by
  have hrun : ∀ s : Verifier.State, body.foldlM (step ctx) s.flat =
      (body.foldlM (Verifier.step ctx) s).map Verifier.State.flat := by
    induction body with
    | nil => exact fun _ => rfl
    | cons i rest ih =>
      intro s
      rw [List.foldlM_cons, List.foldlM_cons, step_flat]
      rcases Verifier.step ctx s i with e | next
      · rfl
      · exact ih next
  have hstart : body.foldlM (step ctx) {} =
      (body.foldlM (Verifier.step ctx) {}).map Verifier.State.flat := hrun {}
  unfold verify Verifier.verify
  rw [hstart]
  rcases body.foldlM (Verifier.step ctx) {} with e | s
  · rfl
  · exact finish_flat ctx s

end OperandStack

end WasmBackend
