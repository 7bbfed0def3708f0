/-! # Errors of the binary format

What can go wrong while bytes are written or read. Every decoding error names an offset into the
bytes that were read. -/

namespace WasmBackend

/-- A value that has no encoding. -/
inductive EncodeError
  /-- An unsigned encoding was asked for a negative value. -/
  | negative (value : Int64)
  deriving DecidableEq

namespace EncodeError

/-- Text of the error. -/
def message : EncodeError → String
  | negative value => s!"Invalid negative value {value.toInt} for unsigned LEB128"

end EncodeError

/-- Bytes that encode nothing. -/
inductive DecodeError
  /-- The bytes end where one more is needed. -/
  | unexpectedEnd (offset : Nat)
  /-- The name at this offset is not UTF-8. -/
  | invalidUtf8 (offset : Nat)
  /-- No instruction at this offset has this code. -/
  | invalidOpcode (code : UInt8) (offset : Nat)
  /-- The number at this offset has too many groups or exceeds its range. -/
  | overflow (offset : Nat)
  deriving DecidableEq

namespace DecodeError

/-- A byte in hexadecimal: `0x` and two lower-case digits. -/
def hexByte (byte : UInt8) : String :=
  let n := byte.toNat
  String.ofList ('0' :: 'x' :: [Nat.digitChar (n / 16), Nat.digitChar (n % 16)])

/-- Text of the error. -/
def message : DecodeError → String
  | unexpectedEnd offset => s!"Unexpected end of bytecode at offset {offset}"
  | invalidUtf8 offset => s!"Invalid UTF-8 string at offset {offset}"
  | invalidOpcode code offset =>
    "Invalid opcode " ++ hexByte code ++ s!" at offset {offset}"
  | overflow offset => s!"LEB128 value overflows at offset {offset}"

end DecodeError

end WasmBackend
