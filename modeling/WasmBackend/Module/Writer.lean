import WasmBackend.Module.Binary
import WasmBackend.Module.Text

/-! # Module writers

A module is written in text or in binary form, one function at a time. Both forms take the same
emissions; they differ in what is kept of them and in what a failure leaves behind. -/

namespace WasmBackend

/-- A module being written. -/
inductive ModuleWriter
  | text (m : TextModule)
  | binary (m : BinaryModule)
  deriving DecidableEq

namespace ModuleWriter

/-- A new module in text form. -/
def newText (options : Options) : ModuleWriter := .text { debugNames := options.debugNames }

/-- A new module in binary form. -/
def newBinary : ModuleWriter := .binary {}

/-- The data section. -/
def data : ModuleWriter → DataSection
  | text m => m.data
  | binary m => m.data

/-- The module with another data section. -/
def withData (data : DataSection) : ModuleWriter → ModuleWriter
  | text m => .text { m with data }
  | binary m => .binary { m with data }

/-- Starts a function; no other one may be open. -/
def beginFunction (f : FunctionDraft) : ModuleWriter → Except CompileError ModuleWriter
  | text m => (m.beginFunction f).map .text
  | binary m => (m.beginFunction f).map .binary

/-- Writes code of the open function; writing no code needs none. -/
def emit (code : List Emission) : ModuleWriter → Except CompileError ModuleWriter
  | text m => (m.emit code).map .text
  | binary m => (m.emit code).map .binary

/-- Completes the open function. -/
def endFunction : ModuleWriter → Except CompileError Unit × ModuleWriter
  | text m =>
    let (result, m) := m.endFunction
    (result, .text m)
  | binary m =>
    match m.endFunction with
    | .ok m => (.ok (), .binary m)
    | .error e => (.error e, .binary m)

/-- Writes a function whose code is known. -/
def writeFunction (w : ModuleWriter) (f : FunctionDraft) : Except CompileError Unit × ModuleWriter :=
  match w.beginFunction f with
  | .ok w => w.endFunction
  | .error e => (.error e, w)

/-- Finishes the module: callees get the indices that the registry gives them. -/
def finish (registry : FunctionRegistry) : ModuleWriter → Except CompileError Unit × ModuleWriter
  | text m =>
    let (result, m) := m.finish registry
    (result, .text m)
  | binary m =>
    let (result, m) := m.finish registry
    (result, .binary m)

/-- What is left after an instruction has been written. -/
structure Written where
  result : Except CompileError Unit
  writer : ModuleWriter
  functions : FunctionRegistry

/-- Writes an instruction into the open function. -/
def write (w : ModuleWriter) (i : Instruction) (options : Options) (types : TypeRegistry)
    (functions : FunctionRegistry) : Written :=
  match i.emissions options types functions with
  | (.error e, functions) => ⟨.error e, w, functions⟩
  | (.ok code, functions) =>
    match w.emit code with
    | .ok w => ⟨.ok (), w, functions⟩
    | .error e => ⟨.error (e.located i.position), w, functions⟩

/-- Writes instructions until one fails. -/
def writeAll (w : ModuleWriter) (options : Options) (types : TypeRegistry)
    (functions : FunctionRegistry) : List Instruction → Written
  | [] => ⟨.ok (), w, functions⟩
  | i :: rest =>
    let written := w.write i options types functions
    match written.result with
    | .ok () => written.writer.writeAll options types written.functions rest
    | .error _ => written

end ModuleWriter

end WasmBackend
