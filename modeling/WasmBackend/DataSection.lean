import WasmBackend.Code

/-! # Data section

Bytes that the module loads into memory at offset zero. Bytes are only ever appended, so an offset
stays valid once it has been written. -/

namespace WasmBackend

/-- The bytes written so far. -/
structure DataSection where
  bytes : List UInt8 := []
  deriving DecidableEq

namespace DataSection

def size (d : DataSection) : Nat := d.bytes.length

def isEmpty (d : DataSection) : Bool := d.bytes.isEmpty

def append (d : DataSection) (bytes : List UInt8) : DataSection := ⟨d.bytes ++ bytes⟩

/-- The payload of the section: one active segment of memory `0` at offset `0`. -/
def encode (d : DataSection) : List UInt8 :=
  Leb128.encodeNat 1 ++ Leb128.encodeNat 0 ++ (TargetOp.i32Const 0).encode ++
    Opcode.endBlock.encode ++ Leb128.encodeNat d.size ++ d.bytes

@[simp]
theorem size_append (d : DataSection) (bytes : List UInt8) :
    (d.append bytes).size = d.size + bytes.length := by
  simp [size, append]

end DataSection

end WasmBackend
