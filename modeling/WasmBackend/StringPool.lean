import WasmBackend.DataSection
import WasmBackend.FunctionRegistry
import WasmBackend.Options
import WasmBackend.TypeRegistry

/-! # String constants

String literals are numbered in the order of their first use. At the end of a module the pool is
written into the data section once: a table of offsets, four bytes each, and then every string as a
name. An entry of the table is the offset of the string's name in the data section.

A function without parameters gives the offset of the table to the accessor that loads strings. -/

namespace WasmBackend

/-- The string literals of one module. -/
structure StringPool where
  /-- Distinct literals in the order of first use. -/
  strings : List String := []
  /-- Offset of the table, once it has been written. -/
  baseOffset : Option Nat := none
  finalized : Bool := false
  deriving DecidableEq

namespace StringPool

/-- The number of a literal, added if it is new. A finalized pool takes no new literal. -/
def intern (p : StringPool) (value : String) : Except CompileError Nat × StringPool :=
  match p.strings.findIdx? (· = value) with
  | some id => (.ok id, p)
  | none =>
    if p.finalized then (.error (.poolFinalized value), p)
    else (.ok p.strings.length, { p with strings := p.strings ++ [value] })

/-- The literal with a number. -/
def get? (p : StringPool) (id : Nat) : Option String := p.strings[id]?

/-! ### The string table -/

/-- Offsets of names that are written one after the other from an offset on. -/
def offsetsFrom : (offset : Nat) → List String → List Nat
  | _, [] => []
  | offset, s :: rest => offset :: offsetsFrom (offset + (encodeName s).length) rest

/-- An offset in the table, four bytes. -/
def encodeOffset (offset : Nat) : Except CompileError (List UInt8) :=
  if offset < 0x100000000 then .ok (littleEndian 4 offset)
  else .error (.ofFault (.dataOffsetRange offset))

/-- Table and names of some strings, to be written at an offset. -/
def encodeTable (base : Nat) (strings : List String) : Except CompileError (List UInt8) := do
  let offsets ← (offsetsFrom (base + 4 * strings.length) strings).mapM encodeOffset
  return offsets.flatten ++ strings.flatMap encodeName

/-- Writes the pool into the data section. This can be done once; an empty pool writes nothing. -/
def finalize (p : StringPool) (data : DataSection) :
    Except CompileError DataSection × StringPool :=
  if p.finalized then (.error (.ofFault .finalizedTwice), p)
  else
    let closed := { p with finalized := true }
    if p.strings.isEmpty then (.ok data, closed)
    else
      match encodeTable data.size p.strings with
      | .ok bytes => (.ok (data.append bytes), { closed with baseOffset := some data.size })
      | .error e => (.error e, closed)

/-! ### Functions around the table -/

/-- The accessor that loads the string with a number. -/
def accessor (options : Options) : FunctionName where
  className := options.stringTableClass
  methodName := "stringConstant"
  signature := "(I)Ljava/lang/String;"
  params := [.i32]
  result := some TypeRegistry.stringType

/-- The function that gives the offset of the table. -/
def offsetFunction (options : Options) : FunctionName where
  className := options.stringTableClass
  methodName := "stringsMemoryOffset"
  signature := "()I"
  params := []
  result := some .i32

/-- Body of a function that returns a constant. -/
def constantBody (value : Int32) : FunctionBody :=
  .code [TargetOp.i32Const value, TargetOp.plain .ret]

/-- Body of the function that gives the offset of the table. -/
def offsetBody (offset : Nat) : Except CompileError FunctionBody :=
  if offset < 0x80000000 then .ok (constantBody (Int32.ofNat offset))
  else .error (.ofFault (.tableOffsetRange offset))

end StringPool

end WasmBackend
