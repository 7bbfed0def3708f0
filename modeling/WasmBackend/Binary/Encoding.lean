import WasmBackend.Binary.Leb128
import WasmBackend.Float.Format
import WasmBackend.Opcode
import WasmBackend.ValueType

/-! # Bytes of the binary format

What is written for words, names, opcodes and types. A binary text is a list of bytes, and writing
is concatenation. -/

namespace WasmBackend

/-! ### Words -/

/-- The `count` lowest bytes of a number, lowest first. -/
def littleEndian : (count : Nat) → (n : Nat) → List UInt8
  | 0, _ => []
  | count + 1, n => UInt8.ofNat (n % 256) :: littleEndian count (n / 256)

/-- The number with the given bytes, lowest first. -/
def ofLittleEndian : List UInt8 → Nat
  | [] => 0
  | byte :: rest => byte.toNat + 256 * ofLittleEndian rest

/-- Bytes of a 32-bit word. -/
def encodeWord32 (w : UInt32) : List UInt8 := littleEndian 4 w.toNat

/-- Bytes of a 64-bit word. -/
def encodeWord64 (w : UInt64) : List UInt8 := littleEndian 8 w.toNat

@[simp]
theorem length_littleEndian (count n : Nat) : (littleEndian count n).length = count := by
  induction count generalizing n with
  | zero => rfl
  | succ count ih => simp [littleEndian, ih]

theorem ofLittleEndian_littleEndian (count n : Nat) :
    ofLittleEndian (littleEndian count n) = n % Nat.pow 256 count := by
  induction count generalizing n with
  | zero => exact (Nat.mod_one n).symm
  | succ count ih =>
    have h : n % Nat.pow 256 (count + 1) = n % 256 + 256 * (n / 256 % Nat.pow 256 count) := by
      rw [← Nat.mod_mul, Nat.mul_comm]
      rfl
    simp only [littleEndian, ofLittleEndian, ih, UInt8.toNat_ofNat']
    omega

/-! ### Text -/

/-- Bytes of a string in UTF-8. -/
def utf8 (s : String) : List UInt8 := s.toUTF8.data.toList

/-- The string with the given UTF-8 bytes. -/
def ofUtf8? (bytes : List UInt8) : Option String := String.fromUTF8? ⟨bytes.toArray⟩

/-- A name: its length in bytes, then its bytes. -/
def encodeName (s : String) : List UInt8 := Leb128.encodeNat (utf8 s).length ++ utf8 s

/-! ### Opcodes and types -/

/-- Bytes of an opcode: its lead byte, if it has one, and its code. -/
def Opcode.encode (op : Opcode) : List UInt8 :=
  match op.lead with
  | some lead => lead :: Leb128.encodeNat op.code.toNat
  | none => [op.code]

/-- The byte before the index of a nullable reference type. -/
def nullableRef : UInt8 := 0x63

/-- The block type of a block without parameters and results. -/
def emptyBlockType : UInt8 := 0x40

/-- Bytes of a target type. -/
def WasmType.encode : WasmType → List UInt8
  | .value ty => [ty.code]
  | .ref index => nullableRef :: Leb128.encodeInt index

end WasmBackend
