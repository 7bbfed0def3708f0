import WasmBackend.Module.Draft

/-! # Modules in text form

Functions in the text format, one line for each instruction, indented by block depth. A call names
its callee if readable names are wanted. Otherwise it gives the index of the callee; before the
module is finished, that is its number in the registry. -/

namespace WasmBackend

/-- A name as an identifier of the text format. -/
def textIdentifier (name : String) : String :=
  let replaced : List Char := [' ', '(', ')', ';', ',', '"', '[', ']', '\x7b', '\x7d']
  String.ofList (name.toList.map fun c => if c ∈ replaced then '_' else c)

/-- A float in the text format: its decimal, or `nan` or `inf` with its sign. -/
def floatLiteral (value : FloatValue) (decimal : String) : String :=
  match value with
  | .nan true => "-nan"
  | .nan false => "nan"
  | .infinite true => "-inf"
  | .infinite false => "inf"
  | .finite _ _ _ => decimal

/-- Text of a target instruction. -/
def TargetOp.text : TargetOp → String
  | plain op => op.name
  | i32Const v => s!"i32.const {v.toInt}"
  | i64Const v => s!"i64.const {v.toInt}"
  | f32Const v => "f32.const " ++ floatLiteral v.value v.text
  | f64Const v => "f64.const " ++ floatLiteral v.value v.text
  | indexed op index => s!"{op.name} {index}"
  | structGet typeIndex field => s!"struct.get {typeIndex} {field}"
  | block op => op.name

/-- How calls are written. -/
structure CallStyle where
  /-- Callees are named. -/
  named : Bool
  /-- Indices of callees, once they are known. -/
  indices : Option ModuleIndices
  deriving DecidableEq

namespace CallStyle

/-- Text of a call. -/
def callText (style : CallStyle) (name : FunctionName) (callee : Nat)
    (viewedAs : Option WasmType) : Except CompileError String :=
  let comment :=
    match viewedAs with
    | some ty => s!" ;; -> {ty.name}"
    | none => ""
  if style.named then .ok ("call $" ++ textIdentifier name.fullName ++ comment)
  else
    match style.indices with
    | some indices => (indices.get callee).map fun index => s!"call {index}{comment}"
    | none => .ok s!"call {callee}{comment}"

/-- Spaces before the code of a block. -/
def indent (depth : Nat) : String := String.ofList (List.replicate (2 * (depth + 1)) ' ')

/-- Lines of code that starts at a block depth. -/
def lines (style : CallStyle) : (depth : Nat) → List BodyOp → Except CompileError (List String)
  | _, [] => .ok []
  | depth, .call name callee viewedAs :: rest => do
    let call ← style.callText name callee viewedAs
    let rest ← style.lines depth rest
    return (indent depth ++ call) :: rest
  | depth, .op op :: rest => do
    let shown := if op = .plain .endBlock then depth - 1 else depth
    let next :=
      match op with
      | .block _ => depth + 1
      | _ => shown
    let rest ← style.lines next rest
    return (indent shown ++ op.text) :: rest

end CallStyle

namespace FunctionDraft

/-- The line that opens the function, without its end. -/
def header (f : FunctionDraft) : String :=
  let params :=
    if f.params.isEmpty then ""
    else " (param" ++ String.join (f.params.map fun ty => " " ++ ty.name) ++ ")"
  let result :=
    match f.result with
    | some ty => s!" (result {ty.name})"
    | none => ""
  "(func $" ++ textIdentifier f.name ++ params ++ result

/-- The line that declares locals, if there are any. -/
def localsText (f : FunctionDraft) : String :=
  if f.declared.isEmpty then ""
  else "  (local " ++ " ".intercalate (f.declared.map WasmType.name) ++ ")\n"

/-- Text of the function. -/
def text (f : FunctionDraft) (style : CallStyle) : Except CompileError String := do
  let lines ← style.lines 0 f.code
  return f.header ++ "\n" ++ f.localsText ++ String.join (lines.map (· ++ "\n")) ++ ")\n"

end FunctionDraft

/-- A module in text form, as far as it has been written. -/
structure TextModule where
  /-- Calls name their callee. -/
  debugNames : Bool
  functions : List FunctionDraft := []
  /-- Indices of functions, once the module has been finished. -/
  indices : Option ModuleIndices := none
  /-- Text of the complete functions. -/
  output : String := ""
  data : DataSection := {}
  /-- The function being written. -/
  current : Option FunctionDraft := none
  deriving DecidableEq

namespace TextModule

/-- How the module writes calls. -/
def style (m : TextModule) : CallStyle := ⟨m.debugNames, m.indices⟩

/-- Starts a function. -/
def beginFunction (m : TextModule) (f : FunctionDraft) : Except CompileError TextModule :=
  match m.current with
  | some current => .error (.ofFault (.functionOpen f.name current.header))
  | none => .ok { m with current := some f }

/-- Writes code of the current function. -/
def emit (m : TextModule) (code : List Emission) : Except CompileError TextModule :=
  match m.current, code with
  | some f, code => .ok { m with current := some (f.extend code) }
  | none, [] => .ok m
  | none, _ :: _ => .error (.ofFault .noOpenFunction)

/-- Completes the current function. It is lost if a callee has no index. -/
def endFunction (m : TextModule) : Except CompileError Unit × TextModule :=
  match m.current with
  | none => (.error (.ofFault .endWithoutBegin), m)
  | some f =>
    let m := { m with current := none }
    match f.text m.style with
    | .ok text => (.ok (), { m with output := m.output ++ text, functions := m.functions ++ [f] })
    | .error e => (.error e, m)

/-- Functions with their index. -/
def indexed (indices : ModuleIndices) (functions : List FunctionDraft) :
    Except CompileError (List (Nat × FunctionDraft)) :=
  functions.mapM fun f => (indices.get f.id).map fun index => (index, f)

/-- Finishes the module: the functions are put in index order and written again with the indices of
their callees. All functions are lost if one of them has no index. -/
def finish (m : TextModule) (registry : FunctionRegistry) :
    Except CompileError Unit × TextModule :=
  if m.current.isSome then (.error (.ofFault (.finishedWhileOpen none)), m)
  else
    let indices := ModuleIndices.ofRegistry registry
    match indexed indices m.functions with
    | .error e => (.error e, { m with functions := [] })
    | .ok keyed =>
      let functions := (keyed.mergeSort fun f g => f.1 ≤ g.1).map Prod.snd
      let m := { m with functions, indices := some indices }
      match functions.mapM fun f => f.text m.style with
      | .ok texts => (.ok (), { m with output := String.join texts })
      | .error e => (.error e, m)

end TextModule

end WasmBackend
