import WasmBackend.Instruction

/-! # Stack discipline

The verifier runs the operand stack of a function on types, using only the contracts of its
instructions. Every open block has a *frame*: the operands pushed since the block was opened, which
is all that code inside the block may pop, and whether control can reach the current instruction.
In code that cannot be reached an empty frame yields any type.

* `Verifier.step` verifies one instruction.
* `Verifier.verify` verifies a function: all blocks are closed and the result is left behind. -/

namespace WasmBackend.Verifier

/-- The operands of one open block, top first. -/
structure Frame where
  operands : List OperandType := []
  unreachable : Bool := false
  deriving DecidableEq

/-- The innermost open frame and those around it. -/
structure State where
  current : Frame := {}
  outer : List Frame := []
  deriving DecidableEq

/-- What the verifier knows of the function. -/
structure Context where
  /-- Name of the function in messages. -/
  function : String
  result : Option OperandType
  slots : SlotTable
  deriving DecidableEq

/-- A value of type `found` can stand where `expected` is asked for. A generic reference type takes
any reference. -/
def compatible (expected found : OperandType) : Bool :=
  expected.widened = found.widened ||
    match expected with
    | .value .anyRef | .value .eqRef | .value .externRef => found.isRef
    | _ => false

/-- Pops one operand of an expected type. -/
def pop (function : String) (position : CodePosition) (frame : Frame) (expected : OperandType) :
    Except CompileError Frame :=
  match frame.operands with
  | found :: rest =>
    if compatible expected found then .ok { frame with operands := rest }
    else .error (.stackTypeMismatch function position (some expected) (some found))
  | [] => if frame.unreachable then .ok frame else .error (.stackUnderflow function position)

/-- Pops operands of expected types, the last one first. -/
def popAll (function : String) (position : CodePosition) (frame : Frame)
    (expected : List OperandType) : Except CompileError Frame :=
  expected.reverse.foldlM (pop function position) frame

/-- Pushes the operand of an instruction, if it has one. -/
def push (frame : Frame) : Option OperandType → Frame
  | some ty => { frame with operands := ty.widened :: frame.operands }
  | none => frame

/-- A `RETURN` must name the result of the function. -/
def checkReturn (ctx : Context) (i : Instruction) : Except CompileError Unit :=
  match i.kind with
  | .control .ret ty _ =>
    let returned := ty.map OperandType.widened
    if returned = ctx.result.map OperandType.widened then .ok ()
    else .error (.stackTypeMismatch ctx.function i.position ctx.result returned)
  | _ => .ok ()

/-- What a control operator does to the frames once its operands are popped. -/
def control (ctx : Context) (position : CodePosition) (op : ControlOp) (s : State) :
    Except CompileError State :=
  match op with
  | .block | .loop => .ok { current := {}, outer := s.current :: s.outer }
  | .endBlock =>
    match s.outer with
    | [] => .error (.internal .endWithoutBlock (some position))
    | enclosing :: outer =>
      if s.current.unreachable || s.current.operands.isEmpty then
        .ok { current := enclosing, outer }
      else
        .error (.stackNotBalanced (.block ctx.function position) [] s.current.operands.reverse)
  | .ret | .br | .unreachable => .ok { s with current := { operands := [], unreachable := true } }
  | .drop | .brIf => .ok s

/-- Verifies one instruction. -/
def step (ctx : Context) (s : State) (i : Instruction) : Except CompileError State := do
  checkReturn ctx i
  let pops ← i.popTypes ctx.slots
  let frame ← popAll ctx.function i.position s.current pops
  let pushed ← i.pushType ctx.slots
  let s := { s with current := push frame pushed }
  match i.controlOp? with
  | some op => control ctx i.position op s
  | none => return s

/-- Verifies the end of the body. -/
def finish (ctx : Context) (s : State) : Except CompileError Unit :=
  if s.outer.isEmpty then
    let expected := (ctx.result.map OperandType.widened).toList
    let found := s.current.operands.reverse
    let balanced :=
      expected.length = found.length && (expected.zip found).all fun (e, f) => compatible e f
    if balanced || (s.current.unreachable && found.isEmpty) then .ok ()
    else .error (.stackNotBalanced (.function ctx.function) expected found)
  else .error (.ofFault (.blocksNotClosed s.outer.length ctx.function))

/-- Verifies a body. -/
def verify (ctx : Context) (body : List Instruction) : Except CompileError Unit := do
  let s ← body.foldlM (step ctx) {}
  finish ctx s

/-- The instructions of a body after it has been verified from a state on. An instruction that is
reached remembers what it learned, also the one that fails. -/
def remembering (ctx : Context) (s : State) : List Instruction → List Instruction
  | [] => []
  | i :: rest =>
    i.remember ctx.slots ::
      match step ctx s i with
      | .ok next => remembering ctx next rest
      | .error _ => rest

/-- The instructions of a body after it has been verified. -/
def remembered (ctx : Context) (body : List Instruction) : List Instruction :=
  remembering ctx {} body

end WasmBackend.Verifier
