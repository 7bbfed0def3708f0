import WasmBackend.Module.Binary

/-! # Writing code at once

A module in binary form, of which nothing but bytes and offsets is kept: the code of the open
function is encoded as it is written, into one buffer that all functions share. -/

namespace WasmBackend

/-- A module in binary form whose code is encoded as it is written. -/
structure BinaryWriter where
  /-- Complete functions of a module that is not finished. -/
  buffered : List BufferedFunction := []
  functions : List EncodedFunction := []
  /-- Number of imports when the module was finished. -/
  importCount : Nat := 0
  data : DataSection := {}
  /-- The function being written. -/
  current : Option OpenFunction := none
  code : CodeBuffer := {}
  scratch : ScratchTable := {}
  deriving DecidableEq

namespace BinaryWriter

/-- Starts a function. -/
def beginFunction (w : BinaryWriter) (f : OpenFunction) : Except CompileError BinaryWriter :=
  match w.current with
  | some current => .error (.ofFault (.functionOpen f.name current.name))
  | none => .ok { w with current := some f, code := {}, scratch := f.scratch }

/-- Writes an emission of the current function. -/
def write (w : BinaryWriter) (e : Emission) : Except CompileError BinaryWriter :=
  match w.current with
  | some _ =>
    let (code, scratch) := CodeBuffer.write (w.code, w.scratch) e
    .ok { w with code, scratch }
  | none => .error (.ofFault .noOpenFunction)

/-- Completes the current function. -/
def endFunction (w : BinaryWriter) : Except CompileError BinaryWriter :=
  match w.current with
  | some f =>
    .ok { w with
      current := none, buffered := w.buffered ++ [f.close w.code w.scratch], code := {} }
  | none => .error (.ofFault .endWithoutBegin)

/-- Finishes the module: callees get the indices that the registry gives them. -/
def finish (w : BinaryWriter) (registry : FunctionRegistry) :
    Except CompileError Unit × BinaryWriter :=
  match w.current with
  | some f => (.error (.ofFault (.finishedWhileOpen (some f.name))), w)
  | none =>
    let indices := ModuleIndices.ofRegistry registry
    let (result, functions) := BinaryModule.finishFunctions indices w.functions w.buffered
    let w := { w with buffered := [], functions }
    match result with
    | .error e => (.error e, w)
    | .ok () => (.ok (), { w with importCount := indices.importCount })

end BinaryWriter

end WasmBackend
