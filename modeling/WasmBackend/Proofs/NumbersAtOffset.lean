import Mathlib.Algebra.BigOperators.Group.Finset.Basic
import Mathlib.Data.Int.ModEq
import WasmBackend.Binary.Reader
import WasmBackend.Proofs.GroupScan

/-! # Numbers at an offset

Bytes alone say what number stands at an offset: it ends with the first byte whose high bit is
clear (`lengthAt?`), and its groups add up to its value (`valueAt`, `signAt`), which has any size.
The readers work on words, and this is what they make of it, for all bytes and all offsets.

* `reads_exactly`: both readers give the value modulo the size of a word if the number has at most
  ten bytes, and else an error that depends only on how many bytes there are.
* `readVaruint_exactly`: a number that must fit 32 bits is read as its value or refused, unless some
  of its bits are beyond the word in which it is collected. -/

namespace WasmBackend

namespace Leb128

/-- Number of bytes from the offset up to the first one whose high bit is clear. -/
def lengthAt? (bytes : List UInt8) (offset : Nat) : Option Nat :=
  ((bytes.drop offset).findIdx? (· < 128)).map (· + 1)

/-- The value of the `n` groups from the offset on. -/
def valueAt (bytes : List UInt8) (offset n : Nat) : Nat :=
  ∑ i ∈ Finset.range n, (bytes.getD (offset + i) 0).toNat % 128 * 2 ^ (7 * i)

/-- What the sign of the `n` groups from the offset on takes away from their value. Ten groups have
no sign. -/
def signAt (bytes : List UInt8) (offset n : Nat) : Nat :=
  if n ≤ 9 ∧ (bytes.getD (offset + (n - 1)) 0).toNat.testBit 6 = true then 2 ^ (7 * n) else 0

/-! ### The bytes of a number -/

section Ended

variable {bytes : List UInt8} {offset n : Nat}

theorem exists_endsAt (h : lengthAt? bytes offset = some n) :
    ∃ init last, EndsAt bytes offset init last ∧ n = (init ++ [last]).length := by
  obtain ⟨i, hfind, rfl⟩ := Option.map_eq_some_iff.mp h
  obtain ⟨hi, hlast, hinit⟩ := List.findIdx?_eq_some_iff_getElem.mp hfind
  refine ⟨(bytes.drop offset).take i, (bytes.drop offset)[i],
    ⟨⟨(bytes.drop offset).drop (i + 1), ?_⟩, ?_, of_decide_eq_true hlast⟩, ?_⟩
  · rw [List.getElem_cons_drop, List.take_append_drop]
  · intro byte hbyte
    obtain ⟨j, hj, rfl⟩ := List.getElem_of_mem hbyte
    rw [List.length_take] at hj
    rw [List.getElem_take]
    simpa using hinit j (by omega)
  · rw [List.length_append, List.length_take, List.length_singleton]
    omega

theorem valueAt_eq_ofGroups (h : n ≤ (bytes.drop offset).length) :
    valueAt bytes offset n = ofGroups ((bytes.drop offset).take n) := by
  induction n with
  | zero => rfl
  | succ n ih =>
    have hbyte : bytes.getD (offset + n) 0 = (bytes.drop offset)[n] := by
      rw [List.getElem_drop, List.getD_eq_getElem]
    rw [valueAt, Finset.sum_range_succ, ← valueAt, ih (Nat.le_of_succ_le h), hbyte,
      ← List.take_concat_get' _ _ h, ofGroups_concat, List.length_take, Nat.min_eq_left (by omega),
      two_pow_seven_mul, Nat.mul_comm]

variable {init : List UInt8} {last : UInt8}

theorem EndsAt.valueAt_eq (h : EndsAt bytes offset init last) :
    valueAt bytes offset (init ++ [last]).length = ofGroups (init ++ [last]) := by
  obtain ⟨post, hdrop⟩ := h.exists_drop
  have hsplit : bytes.drop offset = (init ++ [last]) ++ post := by
    rw [hdrop, List.append_assoc, List.singleton_append]
  have hle : (init ++ [last]).length ≤ (bytes.drop offset).length := by
    rw [hsplit]
    exact (List.prefix_append _ post).length_le
  rw [valueAt_eq_ofGroups hle, hsplit, List.take_left]

theorem EndsAt.signAt_eq (h : EndsAt bytes offset init last) :
    signAt bytes offset (init ++ [last]).length =
      if (init ++ [last]).length ≤ 9 ∧ last.toNat.testBit 6 = true then
        2 ^ (7 * (init ++ [last]).length) else 0 := by
  obtain ⟨post, hdrop⟩ := h.exists_drop
  have hlast : bytes.getD (offset + ((init ++ [last]).length - 1)) 0 = last := by
    rw [List.length_append, List.length_singleton, Nat.add_sub_cancel, List.getD_eq_getElem?_getD,
      ← List.getElem?_drop, hdrop, List.getElem?_append_right (Nat.le_refl _), Nat.sub_self]
    rfl
  rw [signAt, hlast]

theorem valueAt_lt (h : lengthAt? bytes offset = some n) : valueAt bytes offset n < 128 ^ n := by
  obtain ⟨init, last, hends, rfl⟩ := exists_endsAt h
  rw [hends.valueAt_eq]
  exact ofGroups_lt _

theorem EndsAt.add_length_le (h : EndsAt bytes offset init last) :
    offset + (init ++ [last]).length ≤ bytes.length := by
  obtain ⟨post, hdrop⟩ := h.exists_drop
  have hlength := congrArg List.length hdrop
  simp only [List.length_drop, List.length_append, List.length_cons, List.length_nil] at hlength ⊢
  omega

theorem add_le_of_lengthAt? (h : lengthAt? bytes offset = some n) : offset + n ≤ bytes.length := by
  obtain ⟨init, last, hends, rfl⟩ := exists_endsAt h
  exact hends.add_length_le

theorem exists_lengthAt? {byte : UInt8} (hmem : byte ∈ (bytes.drop offset).take 10)
    (hbyte : byte < 128) : ∃ n ≤ 10, lengthAt? bytes offset = some n := by
  have hsome : (((bytes.drop offset).take 10).findIdx? (· < 128)).isSome = true := by
    rw [List.findIdx?_isSome, List.any_eq_true]
    exact ⟨byte, hmem, decide_eq_true hbyte⟩
  obtain ⟨i, hi⟩ := Option.isSome_iff_exists.mp hsome
  have hlt : i < 10 := by
    have hlength := (List.findIdx?_eq_some_iff_getElem.mp hi).1
    rw [List.length_take] at hlength
    omega
  refine ⟨i + 1, hlt, ?_⟩
  rw [lengthAt?, ← List.take_append_drop 10 (bytes.drop offset), List.findIdx?_append, hi]
  rfl

end Ended

/-! ### What the readers make of it -/

section Readers

variable {bytes : List UInt8} {offset n : Nat}

theorem readUnsigned_at (hn : n ≤ 10) (h : lengthAt? bytes offset = some n) :
    readUnsigned bytes offset = .ok (UInt64.ofNat (valueAt bytes offset n), n) := by
  obtain ⟨init, last, hends, rfl⟩ := exists_endsAt h
  rw [List.length_append, List.length_singleton] at hn
  rw [hends.valueAt_eq, hends.readUnsigned_eq hn]

theorem readSigned_at (hn : n ≤ 10) (h : lengthAt? bytes offset = some n) :
    readSigned bytes offset =
      .ok (Int64.ofInt (valueAt bytes offset n - signAt bytes offset n), n) := by
  obtain ⟨init, last, hends, rfl⟩ := exists_endsAt h
  rw [List.length_append, List.length_singleton] at hn
  rw [hends.valueAt_eq, hends.signAt_eq, hends.readSigned_eq hn]
  push_cast
  rfl

theorem read_open (h : ∀ n ≤ 10, lengthAt? bytes offset ≠ some n) :
    readUnsigned bytes offset = .error (openError bytes offset) ∧
      readSigned bytes offset = .error (openError bytes offset) := by
  refine read_of_open fun byte hmem hbyte => ?_
  obtain ⟨n, hn, hlength⟩ := exists_lengthAt? hmem hbyte
  exact h n hn hlength

end Readers

/-- **What the readers do with all bytes at all offsets.** If a number of at most ten bytes stands
at the offset, they give its value modulo the size of a word and the number of its bytes; the signed
one takes the sign into account. Otherwise both fail: the number is too long if there are eleven
bytes, and else the bytes end too early. -/
theorem reads_exactly (bytes : List UInt8) (offset : Nat) :
    (∀ n ≤ 10, lengthAt? bytes offset = some n → ∃ u s,
      readUnsigned bytes offset = .ok (u, n) ∧ u.toNat = valueAt bytes offset n % 2 ^ 64 ∧
      readSigned bytes offset = .ok (s, n) ∧
      s.toInt ≡ valueAt bytes offset n - signAt bytes offset n [ZMOD 2 ^ 64]) ∧
    ((∀ n ≤ 10, lengthAt? bytes offset ≠ some n) → ∃ e,
      e = (if offset + 11 ≤ bytes.length then .overflow offset
        else .unexpectedEnd (max offset bytes.length)) ∧
      readUnsigned bytes offset = .error e ∧ readSigned bytes offset = .error e) := by
  refine ⟨fun n hn hlength => ?_, fun hopen => ⟨openError bytes offset, rfl, read_open hopen⟩⟩
  refine ⟨_, _, readUnsigned_at hn hlength, UInt64.toNat_ofNat' .., readSigned_at hn hlength, ?_⟩
  rw [Int64.toInt_ofInt]
  exact Int.bmod_emod ..

/-- Nine groups have a sign, and ten have none. -/
example :
    readSigned (List.replicate 8 0xFF ++ [0x7F]) 0 = .ok (-1, 9) ∧
      readSigned (List.replicate 9 0xFF ++ [0x00]) 0 = .ok (9223372036854775807, 10) := by
  decide

end Leb128

namespace ByteReader

open Leb128

variable {r : ByteReader} {n : Nat}

/-- The number of `n` bytes at the position has bits beyond a word. -/
def Truncates (r : ByteReader) (n : Nat) : Prop := n = 10 ∧ 2 ^ 64 ≤ valueAt r.bytes r.position n

theorem readVaruint_at (hn : n ≤ 10) (h : lengthAt? r.bytes r.position = some n) :
    r.readVaruint =
      if valueAt r.bytes r.position n % 2 ^ 64 < 2 ^ 32 then
        (.ok (UInt32.ofNat (valueAt r.bytes r.position n % 2 ^ 64)), r.advance n)
      else (.error (.overflow r.position), r) := by
  have hword : (UInt64.ofNat (valueAt r.bytes r.position n)).toUInt32 =
      UInt32.ofNat (valueAt r.bytes r.position n % 2 ^ 64) := by
    rw [← UInt32.toNat_inj, UInt64.toNat_toUInt32, UInt64.toNat_ofNat', UInt32.toNat_ofNat']
  simp only [readVaruint, readUnsigned_at hn h, UInt64.toNat_ofNat', hword]
  rfl

theorem readVaruint_open (h : ∀ n ≤ 10, lengthAt? r.bytes r.position ≠ some n) :
    r.readVaruint = (.error (openError r.bytes r.position), r) := by
  rw [readVaruint, (read_open h).1]

/-- A number of at most ten bytes whose value has more bits than a word has ten bytes. -/
theorem truncates_iff (hn : n ≤ 10) (h : lengthAt? r.bytes r.position = some n) :
    r.Truncates n ↔ 2 ^ 64 ≤ valueAt r.bytes r.position n := by
  refine ⟨fun htruncates => htruncates.2, fun hlarge => ⟨?_, hlarge⟩⟩
  by_contra hten
  have hlt := valueAt_lt h
  have hle : 128 ^ n ≤ 128 ^ 9 := Nat.pow_le_pow_right (by decide) (by omega)
  omega

theorem exists_of_readVaruint {v : UInt32} {next : ByteReader} (h : r.readVaruint = (.ok v, next)) :
    ∃ n ≤ 10, lengthAt? r.bytes r.position = some n ∧ next = r.advance n ∧
      v.toNat = valueAt r.bytes r.position n % 2 ^ 64 := by
  by_cases hopen : ∀ n ≤ 10, lengthAt? r.bytes r.position ≠ some n
  · rw [readVaruint_open hopen] at h
    cases h
  · push Not at hopen
    obtain ⟨n, hn, hlength⟩ := hopen
    rw [readVaruint_at hn hlength] at h
    split_ifs at h with hsmall
    · cases h
      refine ⟨n, hn, hlength, rfl, ?_⟩
      rw [UInt32.toNat_ofNat', Nat.mod_eq_of_lt hsmall]
    · cases h

/-- A number that does not fit 32 bits is refused, unless bits are lost and the others fit. -/
theorem readVaruint_overflow_iff (h : lengthAt? r.bytes r.position = some n)
    (hlarge : 2 ^ 32 ≤ valueAt r.bytes r.position n) :
    r.readVaruint = (.error (.overflow r.position), r) ↔
      ¬ (r.Truncates n ∧ valueAt r.bytes r.position n % 2 ^ 64 < 2 ^ 32) := by
  -- only numbers of at most ten bytes come as far as the check of their size
  rcases Nat.lt_or_ge 10 n with hlong | hn
  · have hroom := add_le_of_lengthAt? h
    have hopen : ∀ m ≤ 10, lengthAt? r.bytes r.position ≠ some m := by
      intro m hm hlength
      cases h.symm.trans hlength
      omega
    refine iff_of_true ?_ fun htruncates => ?_
    · rw [readVaruint_open hopen, openError, if_pos (by omega)]
    · have hten := htruncates.1.1
      omega
  · rw [readVaruint_at hn h, truncates_iff hn h]
    split_ifs with hsmall
    · refine iff_of_false (fun herror => by cases herror) fun hnot => hnot ⟨?_, hsmall⟩
      by_contra hfits
      rw [Nat.mod_eq_of_lt (by omega)] at hsmall
      omega
    · exact iff_of_true rfl fun htruncates => hsmall htruncates.2

/-- **Numbers that must fit 32 bits.** A value that is read is that of the lowest 64 bits of the
number at the position, and so the value of the number unless bits are lost. A number that does not
fit is refused, and the reader stays where it is, unless bits are lost and the others fit. -/
theorem readVaruint_exactly (r : ByteReader) :
    (∀ v next, r.readVaruint = (.ok v, next) → ∃ n, lengthAt? r.bytes r.position = some n ∧
      next = r.advance n ∧ v.toNat = valueAt r.bytes r.position n % 2 ^ 64 ∧
      (v.toNat = valueAt r.bytes r.position n ↔ ¬ r.Truncates n)) ∧
    ∀ n, lengthAt? r.bytes r.position = some n → 2 ^ 32 ≤ valueAt r.bytes r.position n →
      (r.readVaruint = (.error (.overflow r.position), r) ↔
        ¬ (r.Truncates n ∧ valueAt r.bytes r.position n % 2 ^ 64 < 2 ^ 32)) := by
  refine ⟨fun v next h => ?_, fun n hlength hlarge => readVaruint_overflow_iff hlength hlarge⟩
  obtain ⟨n, hn, hlength, hnext, hvalue⟩ := exists_of_readVaruint h
  refine ⟨n, hlength, hnext, hvalue, ?_⟩
  rw [truncates_iff hn hlength, hvalue]
  constructor
  · intro heq
    have hlt := Nat.mod_lt (valueAt r.bytes r.position n) (show 0 < 2 ^ 64 by decide)
    omega
  · intro hfits
    exact Nat.mod_eq_of_lt (by omega)

/-- Ten groups of which only the last one is not zero. Its lowest bit would be bit 63 of a word. -/
def beyondWord : ByteReader where
  bytes := [0x80, 0x80, 0x80, 0x80, 0x80, 0x80, 0x80, 0x80, 0x80, 0x02]

/-- `2 ^ 64` is read as zero. -/
theorem readVaruint_beyondWord :
    lengthAt? beyondWord.bytes beyondWord.position = some 10 ∧
      valueAt beyondWord.bytes beyondWord.position 10 = 2 ^ 64 ∧
      beyondWord.readVaruint = (.ok 0, beyondWord.advance 10) := by
  decide +kernel

end ByteReader

end WasmBackend
