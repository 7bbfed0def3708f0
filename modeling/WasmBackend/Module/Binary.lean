import WasmBackend.Module.Buffer

/-! # Modules in binary form

Functions are kept as drafts until the module is finished, because the index of a callee is known
only then. A finished function is its body with a size in front: groups of locals, code and `end`. -/

namespace WasmBackend

/-- A module in binary form, as far as it has been written. -/
structure BinaryModule where
  /-- Complete functions of a module that is not finished. -/
  buffered : List FunctionDraft := []
  functions : List EncodedFunction := []
  /-- Number of imports when the module was finished. -/
  importCount : Nat := 0
  data : DataSection := {}
  /-- The function being written. -/
  current : Option FunctionDraft := none
  deriving DecidableEq

namespace BinaryModule

/-- Starts a function. -/
def beginFunction (m : BinaryModule) (f : FunctionDraft) : Except CompileError BinaryModule :=
  match m.current with
  | some current => .error (.ofFault (.functionOpen f.name current.name))
  | none => .ok { m with current := some f }

/-- Writes code of the current function. -/
def emit (m : BinaryModule) (code : List Emission) : Except CompileError BinaryModule :=
  match m.current, code with
  | some f, code => .ok { m with current := some (f.extend code) }
  | none, [] => .ok m
  | none, _ :: _ => .error (.ofFault .noOpenFunction)

/-- Completes the current function. -/
def endFunction (m : BinaryModule) : Except CompileError BinaryModule :=
  match m.current with
  | some f => .ok { m with current := none, buffered := m.buffered ++ [f] }
  | none => .error (.ofFault .endWithoutBegin)

/-- Functions by increasing index. -/
def inOrder (functions : List EncodedFunction) : List EncodedFunction :=
  functions.mergeSort fun f g => f.index ≤ g.index

/-- The first function that has the index of its predecessor. -/
def repeated? : List EncodedFunction → Option EncodedFunction
  | f :: g :: rest => if f.index = g.index then some g else repeated? (g :: rest)
  | _ => none

/-- Finishes functions behind those that are finished already, and puts all in index order. Functions
that follow a failing one are lost. -/
def finishFunctions (indices : ModuleIndices) (finished : List EncodedFunction)
    (buffered : List BufferedFunction) : Except CompileError Unit × List EncodedFunction :=
  let (others, result) := BufferedFunction.resolveAll indices buffered
  match result with
  | .error e => (.error e, finished ++ others)
  | .ok () =>
    let functions := inOrder (finished ++ others)
    match repeated? functions with
    | some f => (.error (.ofFault (.writtenTwice f.name)), functions)
    | none => (.ok (), functions)

/-- Finishes the module: the drafts are encoded, and callees get the indices that the registry gives
them. -/
def finish (m : BinaryModule) (registry : FunctionRegistry) :
    Except CompileError Unit × BinaryModule :=
  match m.current with
  | some f => (.error (.ofFault (.finishedWhileOpen (some f.name))), m)
  | none =>
    let indices := ModuleIndices.ofRegistry registry
    let (result, functions) :=
      finishFunctions indices m.functions (m.buffered.map FunctionDraft.buffer)
    let m := { m with buffered := [], functions }
    match result with
    | .error e => (.error e, m)
    | .ok () => (.ok (), { m with importCount := indices.importCount })

/-- The first finished function with a name. -/
def function? (m : BinaryModule) (name : String) : Option EncodedFunction :=
  m.functions.find? fun f => f.name = name

/-- Checks that functions have consecutive indices from an index on. -/
def checkIndices : (expected : Nat) → List EncodedFunction → Except CompileError Unit
  | _, [] => .ok ()
  | expected, f :: rest =>
    if f.index = expected then checkIndices (expected + 1) rest
    else .error (.ofFault (.missingBody expected))

/-- The payload of the code section: number of functions, then their bodies. Every function after
the imports must have one. -/
def codeSection (m : BinaryModule) : Except CompileError (List UInt8) :=
  if m.buffered.isEmpty then
    (checkIndices m.importCount m.functions).map fun _ =>
      Leb128.encodeNat m.functions.length ++ m.functions.flatMap EncodedFunction.bytes
  else .error (.ofFault .notFinished)

/-- The payload of the data section. -/
def dataSection (m : BinaryModule) : List UInt8 := m.data.encode

end BinaryModule

end WasmBackend
