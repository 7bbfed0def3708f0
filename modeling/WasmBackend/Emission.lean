import WasmBackend.Instruction

/-! # Code of instructions

An instruction is written as a list of *emissions*: code operations, and calls of functions that are
still known by their number in the registry. The functions that an instruction calls are registered
as they are met, also when the instruction then turns out to have no code. -/

namespace WasmBackend

/-- An item of generated code. -/
inductive Emission
  | op (op : CodeOp)
  /-- Call of the function with a number; `viewedAs` is the result that the caller sees instead of
  the declared one. -/
  | call (name : FunctionName) (callee : Nat) (viewedAs : Option WasmType)
  deriving DecidableEq

namespace Emission

/-- Emission of a target instruction. -/
abbrev target (op : TargetOp) : Emission := .op (.target op)

end Emission

namespace Instruction

/-- Code of an array operation: inline code, or a call of its helper and the extension of the element
read by it. -/
def arrayCode (op : ArrayOp) (element : OperandType) (array : Nat) (options : Options)
    (types : TypeRegistry) (functions : FunctionRegistry) :
    Except CompileError (List Emission) × FunctionRegistry :=
  match ArrayProfile.select op array options types functions with
  | .error e => (.error e, functions)
  | .ok (none, functions) =>
    (do
      let a ← types.arrayClass array
      let ops ← op.inlineCode a
      return ops.map .op, functions)
  | .ok (some helper, functions) =>
    (do
      let entry ← functions.entry helper
      return .call entry.name helper none :: (op.hostExtension element).map .target, functions)

/-- Code that loads a string: its number, and a call of the accessor. The function that gives the
offset of the string table is registered with a body that is replaced when the offset is known. -/
def stringCode (id : Nat) (options : Options) (functions : FunctionRegistry) :
    Except CompileError (List Emission) × FunctionRegistry :=
  let accessor := StringPool.accessor options
  let (accessorId, functions) := functions.mark accessor false
  let (_, functions) :=
    functions.markSynthetic (StringPool.offsetFunction options) (StringPool.constantBody 0)
  if id < 0x80000000 then
    (.ok [.target (.i32Const (Int32.ofNat id)), .call accessor accessorId none], functions)
  else (.error (.ofFault (.stringIdRange id)), functions)

/-- Code of an instruction, and the functions that are needed with it. -/
def code (i : Instruction) (options : Options) (types : TypeRegistry)
    (functions : FunctionRegistry) : Except CompileError (List Emission) × FunctionRegistry :=
  match i.kind with
  | .const value => (.ok [.target value.code], functions)
  | .convert conversion => (.ok (conversion.code.map .target), functions)
  | .localVar op index _ => (.ok [.target (op.code index)], functions)
  | .loadStore op slot _ resolved =>
    match resolved with
    | some index => (.ok [.target (op.code index)], functions)
    | none => (.error (.ofFault (.unresolvedSlot slot)), functions)
  | .numeric op ty => ((op.code ty).map fun ops => ops.map .target, functions)
  | .array op element array => arrayCode op element array options types functions
  | .call name viewedAs =>
    let (callee, functions) := functions.mark name false
    ((types.lowerResult viewedAs).map fun ty => [.call name callee ty], functions)
  | .stringConst id _ => stringCode id options functions
  | .control op ty depth =>
    ((i.controlPops op ty).map fun _ => [.target (op.code depth)], functions)

/-- Code of an instruction; an error that has no position gets the one of the instruction. -/
def emissions (i : Instruction) (options : Options) (types : TypeRegistry)
    (functions : FunctionRegistry) : Except CompileError (List Emission) × FunctionRegistry :=
  let (result, functions) := i.code options types functions
  (result.mapError (CompileError.located i.position), functions)

end Instruction

end WasmBackend
