import WasmBackend.Binary.Error

/-! # LEB128 numbers

A number is written in groups of seven bits, lowest group first; every byte but the last has its
high bit set. The bytes of a number are defined for all integers. Buffers hold words of 64 bits: a
word is written group by group at the end of a buffer, and groups are collected in a word when they
are read. At most ten groups are read, and bits beyond the word are dropped.

* `encodeNat`, `encodeInt`: the bytes of a number.
* `writeUnsigned`, `writeSigned`: a word written to a buffer and how many bytes it takes.
* `readUnsigned`, `readSigned`: the word at an offset and how many bytes it takes. -/

namespace WasmBackend.Leb128

/-! ### Bytes of numbers -/

/-- The bytes of a natural number. -/
def encodeNat (n : Nat) : List UInt8 :=
  if n < 128 then [UInt8.ofNat n] else UInt8.ofNat (n % 128 + 128) :: encodeNat (n / 128)
termination_by n
decreasing_by omega

/-- The bytes of an integer in two's complement: bit 6 of the last byte is the sign. -/
def encodeInt (v : Int) : List UInt8 :=
  if -64 ≤ v ∧ v < 64 then [UInt8.ofNat (v % 128).toNat]
  else UInt8.ofNat ((v % 128).toNat + 128) :: encodeInt (v / 128)
termination_by v.natAbs
decreasing_by omega

/-- The bytes of a signed word that must not be negative. -/
def encodeChecked (v : Int64) : Except EncodeError (List UInt8) :=
  if v.toInt < 0 then .error (.negative v) else .ok (encodeNat v.toInt.toNat)

/-- Number of bytes that a natural number takes. -/
def unsignedLength (n : Nat) : Nat :=
  if n < 128 then 1 else unsignedLength (n / 128) + 1
termination_by n
decreasing_by omega

theorem length_encodeNat (n : Nat) : (encodeNat n).length = unsignedLength n := by
  induction n using Nat.strongRecOn with
  | ind n ih =>
    rw [encodeNat, unsignedLength]
    split
    · rfl
    · rw [List.length_cons, ih (n / 128) (by omega)]

/-! ### Writing words -/

/-- The lowest group of a word. -/
def lowGroup (v : UInt64) : UInt8 := (v &&& 0x7F).toUInt8

theorem toNat_shiftRight_seven (v : UInt64) : (v >>> 7).toNat = v.toNat / 128 := by
  rw [UInt64.toNat_shiftRight, Nat.shiftRight_eq_div_pow]
  rfl

theorem toInt_shiftRight_seven (v : Int64) : (v >>> 7).toInt = v.toInt / 128 := by
  show (v >>> 7).toBitVec.toInt = v.toBitVec.toInt / 128
  rw [Int64.toBitVec_shiftRight, BitVec.toInt_sshiftRight', Int.shiftRight_eq_div_pow]
  rfl

/-- Appends the groups of a word to a buffer until no bit is left. -/
def pushUnsigned (out : List UInt8) (v : UInt64) : List UInt8 :=
  if v >>> 7 = 0 then out ++ [lowGroup v]
  else pushUnsigned (out ++ [lowGroup v ||| 0x80]) (v >>> 7)
termination_by v.toNat
decreasing_by
  have hrest : (v >>> 7).toNat ≠ 0 := fun h => ‹¬ v >>> 7 = 0› (UInt64.toNat_inj.mp h)
  rw [toNat_shiftRight_seven] at hrest ⊢
  omega

/-- Appends the groups of a signed word to a buffer until only copies of bit 6 of the last one are
left. -/
def pushSigned (out : List UInt8) (v : Int64) : List UInt8 :=
  if (v >>> 7 = 0 ∧ lowGroup v.toUInt64 &&& 0x40 = 0) ∨
      (v >>> 7 = -1 ∧ lowGroup v.toUInt64 &&& 0x40 ≠ 0) then
    out ++ [lowGroup v.toUInt64]
  else pushSigned (out ++ [lowGroup v.toUInt64 ||| 0x80]) (v >>> 7)
termination_by v.toInt.natAbs
decreasing_by
  rw [toInt_shiftRight_seven]
  have hzero : v.toInt ≠ 0 := by
    intro h
    obtain rfl : v = 0 := Int64.toInt_inj.mp h
    exact ‹¬ (_ ∨ _)› (by decide)
  have hones : v.toInt ≠ -1 := by
    intro h
    obtain rfl : v = -1 := Int64.toInt_inj.mp h
    exact ‹¬ (_ ∨ _)› (by decide)
  omega

/-- Writes a word to a buffer; gives the number of bytes. -/
def writeUnsigned (out : List UInt8) (v : UInt64) : Nat × List UInt8 :=
  let written := pushUnsigned out v
  (written.length - out.length, written)

/-- Writes a signed word to a buffer; gives the number of bytes. -/
def writeSigned (out : List UInt8) (v : Int64) : Nat × List UInt8 :=
  let written := pushSigned out v
  (written.length - out.length, written)

/-! ### Reading words -/

/-- What has been read of a number. -/
structure Progress where
  /-- The groups so far, as far as they fit. -/
  word : UInt64 := 0
  /-- Where the next group goes in the word. -/
  shift : Nat := 0
  /-- Where the next byte stands. -/
  position : Nat
  deriving DecidableEq

/-- One more group. -/
def Progress.step (p : Progress) (byte : UInt8) : Progress where
  word := p.word ||| (byte &&& 0x7F).toUInt64 <<< UInt64.ofNat p.shift
  shift := p.shift + 7
  position := p.position + 1

/-- Reads groups up to the first byte whose high bit is clear, and gives that byte too. A group that
has no place in the word is an error of the number at `offset`. -/
def scan (offset : Nat) : Progress → List UInt8 → Except DecodeError (Progress × UInt8)
  | p, [] => .error (.unexpectedEnd p.position)
  | p, byte :: rest =>
    if 64 ≤ p.shift then .error (.overflow offset)
    else if byte &&& 0x80 = 0 then .ok (p.step byte, byte)
    else scan offset (p.step byte) rest

/-- The word of a number with its sign in all higher bits. Bit 6 of the last byte is the sign,
unless the number fills the word. -/
def Progress.signExtended (p : Progress) (last : UInt8) : UInt64 :=
  if p.shift < 64 ∧ last &&& 0x40 ≠ 0 then p.word ||| (-1) <<< UInt64.ofNat p.shift else p.word

/-- The unsigned word at `offset` and the number of bytes it takes. -/
def readUnsigned (bytes : List UInt8) (offset : Nat) : Except DecodeError (UInt64 × Nat) :=
  match scan offset { position := offset } (bytes.drop offset) with
  | .ok (p, _) => .ok (p.word, p.position - offset)
  | .error e => .error e

/-- The signed word at `offset` and the number of bytes it takes. -/
def readSigned (bytes : List UInt8) (offset : Nat) : Except DecodeError (Int64 × Nat) :=
  match scan offset { position := offset } (bytes.drop offset) with
  | .ok (p, last) => .ok ((p.signExtended last).toInt64, p.position - offset)
  | .error e => .error e

end WasmBackend.Leb128
