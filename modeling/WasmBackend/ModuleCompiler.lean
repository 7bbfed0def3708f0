import WasmBackend.Module.Writer
import WasmBackend.Verifier

/-! # Compilation of a module

A module compiler holds what the functions of one module share: options, classes, needed functions
and string literals. A function is compiled in stages: its slots are resolved to locals, its stack
discipline is verified, and its code is written. When the module is finished, the string table is
written, then every needed function whose body is target code, and last the indices of callees.

An operation that fails keeps what it did before the failure. -/

namespace WasmBackend

/-- A function ready to be compiled. -/
structure FunctionCode where
  name : FunctionName
  instructions : List Instruction
  deriving DecidableEq

/-- What the functions of a module share. -/
structure ModuleCompiler where
  options : Options
  types : TypeRegistry
  functions : FunctionRegistry := {}
  strings : StringPool := {}
  deriving DecidableEq

namespace ModuleCompiler

/-- The compiler of an empty module. -/
def new (options : Options) : ModuleCompiler := { options, types := .new options.useGc }

/-! ### Building instructions -/

/-- Operation on the array class of an element type, which is registered if it is new. -/
def arrayInstruction (c : ModuleCompiler) (op : ArrayOp) (element : OperandType)
    (position : CodePosition) : Except CompileError Instruction × ModuleCompiler :=
  let (array, types) := c.types.internArray element
  (array.map fun array => ⟨position, .array op element array⟩, { c with types })

/-- Load of a string literal, which is numbered if it is new. -/
def stringConstant (c : ModuleCompiler) (value : String) (position : CodePosition) :
    Except CompileError Instruction × ModuleCompiler :=
  let (id, strings) := c.strings.intern value
  (id.map fun id => ⟨position, .stringConst id TypeRegistry.stringType⟩, { c with strings })

/-! ### Compiling a function -/

/-- What is left after a function has been compiled. -/
structure Compiled where
  /-- The number of the function. -/
  result : Except CompileError Nat
  compiler : ModuleCompiler
  writer : ModuleWriter
  /-- The function with what its instructions learned. -/
  code : FunctionCode

/-- An empty draft of a function with the given locals, for the types that the registry knows. -/
def draft (c : ModuleCompiler) (id : Nat) (name : FunctionName) (locals : List OperandType) :
    Except CompileError FunctionDraft := do
  let params ← c.types.lowerAll name.params
  let result ← c.types.lowerResult name.result
  let locals ← c.types.lowerAll locals
  return { id, name := name.fullName, params, result, locals }

/-- Compiles a function into the writer. The function is registered first. An open function stays
open if its code cannot be written. -/
def compile (c : ModuleCompiler) (w : ModuleWriter) (code : FunctionCode) : Compiled :=
  let (id, functions) := c.functions.mark code.name false
  let c := { c with functions }
  match SlotTable.ofParams code.name.params with
  | .error e => ⟨.error e, c, w, code⟩
  | .ok slots =>
    let (body, slots) := Instruction.resolveAll code.instructions slots
    let ctx : Verifier.Context :=
      { function := code.name.fullName, result := code.name.result, slots }
    let code := { code with instructions := Verifier.remembered ctx body }
    let opened := do
      Verifier.verify ctx body
      let f ← c.draft id code.name slots.localTypes
      w.beginFunction f
    match opened with
    | .error e => ⟨.error e, c, w, code⟩
    | .ok w =>
      let written := w.writeAll c.options c.types c.functions body
      let c := { c with functions := written.functions }
      match written.result with
      | .error e => ⟨.error e, c, written.writer, code⟩
      | .ok () =>
        let (result, w) := written.writer.endFunction
        ⟨result.map fun _ => id, c, w, code⟩

/-! ### Finishing the module -/

/-- What is left after an operation on the whole module. -/
structure Finished where
  result : Except CompileError Unit
  compiler : ModuleCompiler
  writer : ModuleWriter

/-- The registry in which the function that gives the offset of the string table knows that offset,
if the module needs the function. -/
def patchOffset (c : ModuleCompiler) : Except CompileError FunctionRegistry :=
  let name := StringPool.offsetFunction c.options
  if c.strings.strings.isEmpty && (c.functions.lookup name).isNone then .ok c.functions
  else do
    let body ← StringPool.offsetBody (c.strings.baseOffset.getD 0)
    return (c.functions.markReplacing name body).2

/-- Writes functions whose body is target code, until one fails. -/
def writeCodeFunctions (c : ModuleCompiler) (w : ModuleWriter) :
    List (FunctionEntry × List CodeOp) → Except CompileError Unit × ModuleWriter
  | [] => (.ok (), w)
  | (e, ops) :: rest =>
    match c.draft e.id e.name [] with
    | .error e => (.error e, w)
    | .ok f =>
      match w.writeFunction { f with body := ops.map .op } with
      | (.ok (), w) => c.writeCodeFunctions w rest
      | (.error e, w) => (.error e, w)

/-- Finishes the module. -/
def finish (c : ModuleCompiler) (w : ModuleWriter) : Finished :=
  let (table, strings) := c.strings.finalize w.data
  let c := { c with strings }
  match table with
  | .error e => ⟨.error e, c, w⟩
  | .ok data =>
    let w := w.withData data
    match c.patchOffset with
    | .error e => ⟨.error e, c, w⟩
    | .ok functions =>
      let c := { c with functions }
      match c.writeCodeFunctions w c.functions.codeFunctions with
      | (.error e, w) => ⟨.error e, c, w⟩
      | (.ok (), w) =>
        let (result, w) := w.finish c.functions
        ⟨result, c, w⟩

end ModuleCompiler

end WasmBackend
