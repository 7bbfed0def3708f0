/-! # Positions in source code -/

namespace WasmBackend

/-- Where an instruction comes from. A negative number stands for an unknown one. -/
structure CodePosition where
  /-- Byte offset in the code of the source method. -/
  offset : Int
  /-- Source line. -/
  line : Int
  deriving DecidableEq

namespace CodePosition

/-- Position of code that has no source. -/
def unknown : CodePosition := ⟨-1, -1⟩

/-- Readable form. -/
def text (p : CodePosition) : String :=
  match decide (0 ≤ p.offset), decide (0 ≤ p.line) with
  | true, true => s!"offset {p.offset} (line {p.line})"
  | true, false => s!"offset {p.offset}"
  | false, true => s!"line {p.line}"
  | false, false => "unknown position"

end CodePosition

end WasmBackend
