import WasmBackend.Binary.Encoding

/-! # Reading the binary format

A `ByteReader` is a position in a list of bytes. Each reading operation gives its result together
with the reader after it. When a fixed number of bytes or a LEB128 number cannot be read, the reader
stays where it was. A name and an opcode are read in two steps, and a failure of the second step
leaves the reader after the first. -/

namespace WasmBackend

/-- A position in a list of bytes. -/
structure ByteReader where
  bytes : List UInt8
  position : Nat := 0
  deriving DecidableEq

namespace ByteReader

/-- Number of bytes after the position. -/
def remaining (r : ByteReader) : Nat := r.bytes.length - r.position

/-- Some byte is left. -/
def hasMore (r : ByteReader) : Bool := r.position < r.bytes.length

/-- The reader further on. -/
def advance (r : ByteReader) (count : Nat) : ByteReader := { r with position := r.position + count }

/-- Reads a given number of bytes. -/
def readBytes (r : ByteReader) (count : Nat) : Except DecodeError (List UInt8) × ByteReader :=
  if r.bytes.length < r.position + count then (.error (.unexpectedEnd r.position), r)
  else (.ok ((r.bytes.drop r.position).take count), r.advance count)

/-- Reads one byte. -/
def readByte (r : ByteReader) : Except DecodeError UInt8 × ByteReader :=
  match r.bytes[r.position]? with
  | some byte => (.ok byte, r.advance 1)
  | none => (.error (.unexpectedEnd r.position), r)

/-- Reads a word of a given number of bytes, lowest byte first. -/
def readWord (r : ByteReader) (count : Nat) : Except DecodeError Nat × ByteReader :=
  match r.readBytes count with
  | (.ok bytes, next) => (.ok (ofLittleEndian bytes), next)
  | (.error e, next) => (.error e, next)

/-- Reads a 32-bit word. -/
def readWord32 (r : ByteReader) : Except DecodeError UInt32 × ByteReader :=
  let (result, next) := r.readWord 4
  (result.map UInt32.ofNat, next)

/-- Reads a 64-bit word. -/
def readWord64 (r : ByteReader) : Except DecodeError UInt64 × ByteReader :=
  let (result, next) := r.readWord 8
  (result.map UInt64.ofNat, next)

/-- Reads an unsigned LEB128 number below `2 ^ 32`. -/
def readVaruint (r : ByteReader) : Except DecodeError UInt32 × ByteReader :=
  match Leb128.readUnsigned r.bytes r.position with
  | .ok (value, length) =>
    if value.toNat < 0x100000000 then (.ok value.toUInt32, r.advance length)
    else (.error (.overflow r.position), r)
  | .error e => (.error e, r)

/-- Reads a signed LEB128 number. -/
def readVarint (r : ByteReader) : Except DecodeError Int64 × ByteReader :=
  match Leb128.readSigned r.bytes r.position with
  | .ok (value, length) => (.ok value, r.advance length)
  | .error e => (.error e, r)

/-- Reads a name: its length in bytes, then its UTF-8 bytes. -/
def readName (r : ByteReader) : Except DecodeError String × ByteReader :=
  match r.readVaruint with
  | (.error e, next) => (.error e, next)
  | (.ok length, body) =>
    match body.readBytes length.toNat with
    | (.error e, next) => (.error e, next)
    | (.ok bytes, next) =>
      match ofUtf8? bytes with
      | some s => (.ok s, next)
      | none => (.error (.invalidUtf8 r.position), next)

/-- Reads an opcode: a byte, and a sub-opcode if the byte is a lead byte. -/
def readOpcode (r : ByteReader) : Except DecodeError Opcode × ByteReader :=
  match r.readByte with
  | (.error e, next) => (.error e, next)
  | (.ok first, body) =>
    if first = Opcode.gcLead ∨ first = Opcode.saturatingLead then
      match body.readVaruint with
      | (.error e, next) => (.error e, next)
      | (.ok sub, next) =>
        if 256 ≤ sub.toNat then (.error (.invalidOpcode first r.position), next)
        else
          match Opcode.decode? (some first) sub.toUInt8 with
          | some op => (.ok op, next)
          | none => (.error (.invalidOpcode sub.toUInt8 r.position), next)
    else
      match Opcode.decode? none first with
      | some op => (.ok op, body)
      | none => (.error (.invalidOpcode first r.position), body)

end ByteReader

end WasmBackend
