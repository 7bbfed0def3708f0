import WasmBackend.Proofs.Leb128

/-! # Words written to a buffer

A writer shifts the groups out of a word one after the other. It stops when the rest is zero or,
for a signed word, only repeats the sign of the last group. The bytes that it appended to the buffer
are those of the number that the word stands for (`pushUnsigned_eq`, `pushSigned_eq`), so that words
of both kinds can be read back (`words_roundTrip`). -/

namespace WasmBackend.Leb128

theorem toNat_lowGroup (v : UInt64) : (lowGroup v).toNat = v.toNat % 128 := by
  have hand : (v &&& 0x7F).toNat = v.toNat % 128 := by
    rw [UInt64.toNat_and]
    exact Nat.and_two_pow_sub_one_eq_mod v.toNat 7
  rw [lowGroup, UInt64.toNat_toUInt8, hand]
  omega

theorem lowGroup_eq (v : UInt64) : lowGroup v = UInt8.ofNat (v.toNat % 128) := by
  rw [← toNat_lowGroup, UInt8.ofNat_toNat]

theorem lowGroup_or_high (v : UInt64) :
    lowGroup v ||| 0x80 = UInt8.ofNat (v.toNat % 128 + 128) := by
  have hgroup : v.toNat % 128 < 2 ^ 7 := Nat.mod_lt _ (by decide)
  rw [← UInt8.toNat_inj, UInt8.toNat_or, toNat_lowGroup, toNat_ofNat_of_lt (by omega), Nat.or_comm,
    Nat.add_comm]
  exact (Nat.two_pow_add_eq_or_of_lt hgroup 1).symm

/-! ### Unsigned words -/

/-- **The bytes of a word** are appended to the buffer. -/
theorem pushUnsigned_eq (out : List UInt8) (v : UInt64) :
    pushUnsigned out v = out ++ encodeNat v.toNat := by
  fun_induction pushUnsigned out v with
  | case1 out v hlast =>
    have hsmall : v.toNat / 128 = 0 := by rw [← toNat_shiftRight_seven, hlast]; rfl
    rw [encodeNat, if_pos (by omega), lowGroup_eq, Nat.mod_eq_of_lt (by omega)]
  | case2 out v hmore ih =>
    have hlarge : v.toNat / 128 ≠ 0 := by
      rw [← toNat_shiftRight_seven]
      exact fun h => hmore (UInt64.toNat_inj.mp h)
    rw [ih, toNat_shiftRight_seven, lowGroup_or_high, encodeNat.eq_def v.toNat, if_neg (by omega),
      List.append_assoc, List.singleton_append]

/-! ### Signed words -/

theorem toNat_toUInt64_mod (v : Int64) : v.toUInt64.toNat % 128 = (v.toInt % 128).toNat := by
  have hint : v.toInt = Int.bmod v.toUInt64.toNat (2 ^ 64) := BitVec.toInt_eq_toNat_bmod ..
  rw [hint, Int.bmod_def]
  split <;> omega

/-- The rest of a word are copies of bit 6 exactly if the word fits its lowest group. -/
theorem signed_ends_iff (v : Int64) :
    ((v >>> 7 = 0 ∧ lowGroup v.toUInt64 &&& 0x40 = 0) ∨
      (v >>> 7 = -1 ∧ lowGroup v.toUInt64 &&& 0x40 ≠ 0)) ↔ -64 ≤ v.toInt ∧ v.toInt < 64 := by
  have hzero : v >>> 7 = 0 ↔ v.toInt / 128 = 0 := by
    rw [← Int64.toInt_inj, toInt_shiftRight_seven]
    rfl
  have hones : v >>> 7 = -1 ↔ v.toInt / 128 = -1 := by
    rw [← Int64.toInt_inj, toInt_shiftRight_seven]
    rfl
  have hbit : lowGroup v.toUInt64 &&& 0x40 = 0 ↔ ¬ 64 ≤ v.toInt % 128 := by
    have hgroup := toNat_toUInt64_mod v
    rw [and_eq_zero_iff_testBit _ (show (0x40 : UInt8).toNat = 2 ^ 6 from rfl), ← Bool.not_eq_true,
      testBit_six, toNat_lowGroup]
    omega
  rw [hzero, hones, Ne, hbit]
  omega

/-- **The bytes of a signed word** are appended to the buffer. -/
theorem pushSigned_eq (out : List UInt8) (v : Int64) :
    pushSigned out v = out ++ encodeInt v.toInt := by
  fun_induction pushSigned out v with
  | case1 out v hlast =>
    rw [encodeInt, if_pos ((signed_ends_iff v).mp hlast), lowGroup_eq, toNat_toUInt64_mod]
  | case2 out v hmore ih =>
    rw [ih, toInt_shiftRight_seven, lowGroup_or_high, toNat_toUInt64_mod, encodeInt.eq_def v.toInt,
      if_neg (mt (signed_ends_iff v).mpr hmore), List.append_assoc, List.singleton_append]

/-! ### Both ways -/

/-- The word is written, behind any buffer, as one to ten bytes that are counted, and is read back
from them between any other bytes. -/
def RoundTrips {α : Type} (write : List UInt8 → α → Nat × List UInt8)
    (read : List UInt8 → Nat → Except DecodeError (α × Nat)) (v : α) : Prop :=
  ∃ number : List UInt8, 1 ≤ number.length ∧ number.length ≤ 10 ∧
    (∀ out, write out v = (number.length, out ++ number)) ∧
    ∀ pre post, read (pre ++ number ++ post) pre.length = .ok (v, number.length)

theorem IsNumber.length_pos {number : List UInt8} (h : IsNumber number) : 1 ≤ number.length := by
  cases h <;> simp

theorem writeUnsigned_eq (out : List UInt8) (v : UInt64) :
    writeUnsigned out v = ((encodeNat v.toNat).length, out ++ encodeNat v.toNat) := by
  rw [writeUnsigned, pushUnsigned_eq, List.length_append, Nat.add_sub_cancel_left]

theorem writeSigned_eq (out : List UInt8) (v : Int64) :
    writeSigned out v = ((encodeInt v.toInt).length, out ++ encodeInt v.toInt) := by
  rw [writeSigned, pushSigned_eq, List.length_append, Nat.add_sub_cancel_left]

theorem roundTrips_unsigned (v : UInt64) : RoundTrips writeUnsigned readUnsigned v := by
  have hword := v.toNat_lt
  refine ⟨encodeNat v.toNat, (isNumber_encodeNat _).length_pos, length_encodeNat_word hword,
    (writeUnsigned_eq · v), ?_⟩
  intro pre post
  rw [readUnsigned_encodeNat hword, UInt64.ofNat_toNat]

theorem roundTrips_signed (v : Int64) : RoundTrips writeSigned readSigned v := by
  exact ⟨encodeInt v.toInt, (isNumber_encodeInt _).length_pos, length_encodeInt_word v,
    (writeSigned_eq · v), readSigned_encodeInt v⟩

/-- **Words are read back from what was written**, unsigned ones and signed ones. -/
theorem words_roundTrip :
    (∀ v : UInt64, RoundTrips writeUnsigned readUnsigned v) ∧
      ∀ v : Int64, RoundTrips writeSigned readSigned v :=
  ⟨roundTrips_unsigned, roundTrips_signed⟩

end WasmBackend.Leb128
