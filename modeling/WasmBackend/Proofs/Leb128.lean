import Mathlib.Tactic.Linarith
import Mathlib.Tactic.Ring
import WasmBackend.Proofs.GroupScan

/-! # LEB128 numbers in context

The bytes of a number say where it ends (`IsNumber`), so that a number can be read back wherever it
stands, whatever follows it.

* `ofGroups_encodeNat`, `ofSignedGroups_encodeInt`: the groups of a number denote it.
* `readUnsigned_encodeNat`, `readSigned_encodeInt`: words of 64 bits are read back. -/

namespace WasmBackend.Leb128

/-- All bytes but the last one have their high bit set. -/
inductive IsNumber : List UInt8 → Prop
  | last {byte : UInt8} : byte < 128 → IsNumber [byte]
  | more {byte : UInt8} {rest : List UInt8} : ¬ byte < 128 → IsNumber rest → IsNumber (byte :: rest)

theorem IsNumber.exists_concat {number : List UInt8} (h : IsNumber number) :
    ∃ init last, number = init ++ [last] ∧ (∀ byte ∈ init, ¬ byte < 128) ∧ last < 128 := by
  induction h with
  | last hbyte => exact ⟨[], _, rfl, by simp, hbyte⟩
  | more hbyte _ ih =>
    obtain ⟨init, last, rfl, hinit, hlast⟩ := ih
    exact ⟨_ :: init, last, rfl, List.forall_mem_cons.mpr ⟨hbyte, hinit⟩, hlast⟩

theorem IsNumber.exists_endsAt {number : List UInt8} (h : IsNumber number) (pre post : List UInt8) :
    ∃ init last, number = init ++ [last] ∧ EndsAt (pre ++ number ++ post) pre.length init last := by
  obtain ⟨init, last, hnumber, hinit, hlast⟩ := h.exists_concat
  refine ⟨init, last, hnumber, ⟨post, ?_⟩, hinit, hlast⟩
  rw [List.append_assoc, List.drop_left, hnumber, List.append_assoc, List.singleton_append]

theorem toNat_ofNat_of_lt {n : Nat} (h : n < 256) : (UInt8.ofNat n).toNat = n := by
  rw [UInt8.toNat_ofNat', Nat.mod_eq_of_lt h]

theorem ofNat_lt_iff {n : Nat} (h : n < 256) : UInt8.ofNat n < 128 ↔ n < 128 := by
  rw [UInt8.lt_iff_toNat_lt, toNat_ofNat_of_lt h]
  rfl

/-! ### Natural numbers -/

theorem isNumber_encodeNat (n : Nat) : IsNumber (encodeNat n) := by
  fun_induction encodeNat n with
  | case1 n hn => exact .last ((ofNat_lt_iff (by omega)).mpr hn)
  | case2 n hn ih =>
    refine .more ?_ ih
    rw [ofNat_lt_iff (by omega)]
    omega

theorem ofGroups_encodeNat (n : Nat) : ofGroups (encodeNat n) = n := by
  fun_induction encodeNat n with
  | case1 n hn =>
    simp only [ofGroups, toNat_ofNat_of_lt (show n < 256 by omega)]
    omega
  | case2 n hn ih =>
    simp only [ofGroups, ih, toNat_ofNat_of_lt (show n % 128 + 128 < 256 by omega)]
    omega

theorem length_encodeNat_le {n k : Nat} (h : n < 128 ^ (k + 1)) :
    (encodeNat n).length ≤ k + 1 := by
  induction k generalizing n with
  | zero =>
    rw [encodeNat, if_pos (by omega)]
    simp
  | succ k ih =>
    rw [encodeNat]
    split_ifs with hn
    · simp
    · rw [pow_succ] at h
      have hrest : (encodeNat (n / 128)).length ≤ k + 1 := ih (by omega)
      simpa using hrest

theorem length_encodeNat_word {n : Nat} (h : n < 0x10000000000000000) : (encodeNat n).length ≤ 10 :=
  length_encodeNat_le (by norm_num; omega)

/-! ### Integers -/

/-- The integer that a list of groups denotes when bit 6 of the last one is a sign. -/
def ofSignedGroups (number : List UInt8) : Int :=
  if Nat.pow 128 number.length ≤ 2 * ofGroups number then
    (ofGroups number : Int) - (Nat.pow 128 number.length : Nat)
  else ofGroups number

theorem isNumber_encodeInt (v : Int) : IsNumber (encodeInt v) := by
  fun_induction encodeInt v with
  | case1 v hv => exact .last ((ofNat_lt_iff (by omega)).mpr (by omega))
  | case2 v hv ih =>
    refine .more ?_ ih
    rw [ofNat_lt_iff (by omega)]
    omega

theorem emod_group (v : Int) {width : Nat} (hwidth : 0 < width) :
    v % (128 * width : Nat) = v % 128 + 128 * (v / 128 % width) := by
  have hv := Int.mul_ediv_add_emod v 128
  have hq := Int.mul_ediv_add_emod (v / 128) width
  have hlow := Int.emod_nonneg (v / 128) (show (width : Int) ≠ 0 by omega)
  have hhigh := Int.emod_lt_of_pos (v / 128) (show (0 : Int) < width by omega)
  have hsplit : v = v % 128 + 128 * (v / 128 % width) +
      ((128 * width : Nat) : Int) * (v / 128 / width) := by
    calc v = 128 * (v / 128) + v % 128 := hv.symm
      _ = 128 * (width * (v / 128 / width) + v / 128 % width) + v % 128 := by rw [hq]
      _ = _ := by push_cast; ring
  rw [hsplit, Int.add_mul_emod_self_left, ← hsplit, Int.emod_eq_of_lt (by omega) (by omega)]

theorem ofGroups_encodeInt (v : Int) :
    (ofGroups (encodeInt v) : Int) = v % (128 ^ (encodeInt v).length : Nat) := by
  fun_induction encodeInt v with
  | case1 v hv =>
    simp only [ofGroups, toNat_ofNat_of_lt (show (v % 128).toNat < 256 by omega),
      List.length_singleton]
    omega
  | case2 v hv ih =>
    rw [List.length_cons, pow_succ', emod_group v (by positivity), ← ih]
    simp only [ofGroups, toNat_ofNat_of_lt (show (v % 128).toNat + 128 < 256 by omega)]
    omega

theorem encodeInt_bounds (v : Int) : ∃ k, (encodeInt v).length = k + 1 ∧
    -(64 * 128 ^ k : Nat) ≤ v ∧ v < (64 * 128 ^ k : Nat) := by
  fun_induction encodeInt v with
  | case1 v hv => exact ⟨0, rfl, by simpa using hv.1, by simpa using hv.2⟩
  | case2 v hv ih =>
    obtain ⟨k, hlength, hlow, hhigh⟩ := ih
    refine ⟨k + 1, by rw [List.length_cons, hlength], ?_, ?_⟩
    · rw [pow_succ]
      omega
    · rw [pow_succ]
      omega

theorem length_encodeInt_le {v : Int} {k : Nat} (hlow : -(64 * 128 ^ k : Nat) ≤ v)
    (hhigh : v < (64 * 128 ^ k : Nat)) : (encodeInt v).length ≤ k + 1 := by
  induction k generalizing v with
  | zero =>
    rw [encodeInt, if_pos ⟨by simpa using hlow, by simpa using hhigh⟩]
    simp
  | succ k ih =>
    rw [encodeInt]
    split_ifs with hv
    · simp
    · rw [pow_succ] at hlow hhigh
      have hrest : (encodeInt (v / 128)).length ≤ k + 1 := ih (by omega) (by omega)
      simpa using hrest

theorem length_encodeInt_word (v : Int64) : (encodeInt v.toInt).length ≤ 10 := by
  have hlow := v.le_toInt
  have hhigh := v.toInt_lt
  exact length_encodeInt_le (by norm_num; omega) (by norm_num; omega)

theorem ofSignedGroups_encodeInt (v : Int) : ofSignedGroups (encodeInt v) = v := by
  obtain ⟨k, hlength, hlow, hhigh⟩ := encodeInt_bounds v
  have hgroups := ofGroups_encodeInt v
  have hwidth : Nat.pow 128 (encodeInt v).length = 2 * (64 * 128 ^ k) := by
    rw [hlength]
    show 128 ^ (k + 1) = _
    rw [pow_succ]
    ring
  have hpow : 128 ^ (encodeInt v).length = 2 * (64 * 128 ^ k) := hwidth
  unfold ofSignedGroups
  rw [hwidth]
  rw [hpow] at hgroups
  generalize 64 * 128 ^ k = half at *
  rcases Int.lt_or_le v 0 with hv | hv
  · have hmod : v % ((2 * half : Nat) : Int) = v + (2 * half : Nat) := by
      rw [← Int.add_emod_right, Int.emod_eq_of_lt (by omega) (by omega)]
    rw [hmod] at hgroups
    rw [if_pos (by omega), hgroups]
    omega
  · have hmod : v % ((2 * half : Nat) : Int) = v := Int.emod_eq_of_lt hv (by omega)
    rw [hmod] at hgroups
    rw [if_neg (by omega), hgroups]

/-! ### Reading -/

/-- The sign is bit 6 of the last group. -/
theorem ofSignedGroups_concat (init : List UInt8) (last : UInt8) :
    ofSignedGroups (init ++ [last]) = ofGroups (init ++ [last]) -
      if last.toNat.testBit 6 = true then 2 ^ (7 * (init ++ [last]).length) else 0 := by
  have hwidth : Nat.pow 128 (init ++ [last]).length = 128 ^ init.length * 128 := by
    rw [List.length_append, List.length_singleton]
    exact pow_succ 128 init.length
  have hpow : 2 ^ (7 * (init ++ [last]).length) = 128 ^ init.length * 128 :=
    (two_pow_seven_mul _).trans hwidth
  have hsign : 128 ^ init.length * 128 ≤ 2 * ofGroups (init ++ [last]) ↔
      last.toNat.testBit 6 = true := by
    have hlow := ofGroups_lt init
    rw [ofGroups_concat, testBit_six]
    constructor
    · intro hle
      by_contra hgroup
      have hhigh : 128 ^ init.length * (last.toNat % 128) ≤ 128 ^ init.length * 63 :=
        Nat.mul_le_mul_left _ (by omega)
      omega
    · intro hgroup
      have hhigh : 128 ^ init.length * 64 ≤ 128 ^ init.length * (last.toNat % 128) :=
        Nat.mul_le_mul_left _ hgroup
      omega
  unfold ofSignedGroups
  rw [hwidth]
  simp only [hsign]
  split_ifs
  · rw [← hpow]
    norm_num
  · rw [sub_zero]

theorem readUnsigned_encodeNat {n : Nat} (hn : n < 0x10000000000000000) (pre post : List UInt8) :
    readUnsigned (pre ++ encodeNat n ++ post) pre.length =
      .ok (UInt64.ofNat n, (encodeNat n).length) := by
  have hlength := length_encodeNat_word hn
  obtain ⟨init, last, hnumber, hends⟩ := (isNumber_encodeNat n).exists_endsAt pre post
  have hshort : init.length < 10 := by
    rw [hnumber, List.length_append, List.length_singleton] at hlength
    omega
  rw [hends.readUnsigned_eq hshort, ← hnumber, ofGroups_encodeNat]

/-- A signed word is read back from its bytes. Ten bytes hold more bits than the word, and those
beyond it are dropped. -/
theorem readSigned_encodeInt (v : Int64) (pre post : List UInt8) :
    readSigned (pre ++ encodeInt v.toInt ++ post) pre.length =
      .ok (v, (encodeInt v.toInt).length) := by
  have hlength := length_encodeInt_word v
  obtain ⟨init, last, hnumber, hends⟩ := (isNumber_encodeInt v.toInt).exists_endsAt pre post
  have hshort : init.length < 10 := by
    rw [hnumber, List.length_append, List.length_singleton] at hlength
    omega
  rw [hends.readSigned_eq hshort]
  by_cases hnine : (encodeInt v.toInt).length ≤ 9
  · have hsigned := ofSignedGroups_concat init last
    rw [← hnumber, ofSignedGroups_encodeInt] at hsigned
    simp only [← hnumber, hnine, true_and, ← hsigned, Int64.ofInt_toInt]
  · have hten : (encodeInt v.toInt).length = 10 := by omega
    rw [← hnumber, if_neg (by omega), sub_zero, ofGroups_encodeInt, hten]
    simp only [Except.ok.injEq, Prod.mk.injEq, and_true]
    rw [Int64.ofInt_eq_iff_bmod_eq_toInt, ← Int.emod_bmod,
      Int.emod_emod_of_dvd _ (by norm_num), Int.emod_bmod]
    exact v.toInt_bmod

end WasmBackend.Leb128
