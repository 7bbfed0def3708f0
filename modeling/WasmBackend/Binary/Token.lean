import WasmBackend.Binary.Reader

/-! # Token streams

A *token* is one item of the binary format: a word, a number, a name or an opcode. `Token.encode`
writes it, and `ByteReader.readToken` reads the token of a given shape. -/

namespace WasmBackend

/-- Items of the binary format. -/
inductive Token
  | byte (b : UInt8)
  | word32 (w : UInt32)
  | float32 (x : F32)
  | float64 (x : F64)
  | raw (bytes : List UInt8)
  | varuint (n : UInt32)
  | varint (v : Int64)
  | name (s : String)
  | opcode (op : Opcode)
  deriving DecidableEq

namespace Token

/-- The bytes of a token. -/
def encode : Token → List UInt8
  | byte b => [b]
  | word32 w => encodeWord32 w
  | float32 x => encodeWord32 x.bits
  | float64 x => encodeWord64 x.bits
  | raw bytes => bytes
  | varuint n => Leb128.encodeNat n.toNat
  | varint v => Leb128.encodeInt v.toInt
  | name s => encodeName s
  | opcode op => op.encode

/-- What has to be known to read a token. -/
inductive Shape
  | byte
  | word32
  | float32
  | float64
  /-- A given number of bytes. -/
  | raw (count : Nat)
  | varuint
  | varint
  | name
  | opcode
  deriving DecidableEq

/-- The shape of a token. -/
def shape : Token → Shape
  | byte _ => .byte
  | word32 _ => .word32
  | float32 _ => .float32
  | float64 _ => .float64
  | raw bytes => .raw bytes.length
  | varuint _ => .varuint
  | varint _ => .varint
  | name _ => .name
  | opcode _ => .opcode

end Token

namespace ByteReader

/-- A result turned into a token. -/
def tokenOf {α : Type} (f : α → Token) (read : Except DecodeError α × ByteReader) :
    Except DecodeError Token × ByteReader :=
  (read.1.map f, read.2)

/-- Reads the token of a given shape. -/
def readToken (r : ByteReader) : Token.Shape → Except DecodeError Token × ByteReader
  | .byte => tokenOf .byte r.readByte
  | .word32 => tokenOf .word32 r.readWord32
  | .float32 => tokenOf (fun w => .float32 ⟨w⟩) r.readWord32
  | .float64 => tokenOf (fun w => .float64 ⟨w⟩) r.readWord64
  | .raw count => tokenOf .raw (r.readBytes count)
  | .varuint => tokenOf .varuint r.readVaruint
  | .varint => tokenOf .varint r.readVarint
  | .name => tokenOf .name r.readName
  | .opcode => tokenOf .opcode r.readOpcode

end ByteReader

end WasmBackend
