import Mathlib.Data.Nat.Bitwise
import Mathlib.Data.Nat.Digits.Defs
import Mathlib.Tactic.Ring
import WasmBackend.Binary.Leb128

/-! # Groups collected in a word

A reader of numbers shifts each group to its place in a word. After any groups the word holds the
number that they denote, as far as it fits (`Progress.after`, `step_after`). A number that ends
within ten bytes is read whole, whatever follows it (`scan_of_ended`); any other bytes are refused,
for the reason that comes first (`scan_of_open`).

* `ofGroups`: the number that a list of groups denotes.
* `EndsAt.readUnsigned_eq`, `EndsAt.readSigned_eq`: what is read at an offset.
* `read_of_open`: when nothing is read. -/

namespace WasmBackend.Leb128

/-! ### Bits of a byte -/

theorem toNat_and_low (byte : UInt8) : (byte &&& 0x7F).toNat = byte.toNat % 128 := by
  rw [UInt8.toNat_and]
  exact Nat.and_two_pow_sub_one_eq_mod byte.toNat 7

theorem and_eq_zero_iff_testBit (byte : UInt8) {mask : UInt8} {i : Nat}
    (hmask : mask.toNat = 2 ^ i) : byte &&& mask = 0 ↔ byte.toNat.testBit i = false := by
  rw [← UInt8.toNat_inj, UInt8.toNat_and, hmask, Nat.and_two_pow]
  cases byte.toNat.testBit i <;> simp

theorem and_high_eq_zero (byte : UInt8) : byte &&& 0x80 = 0 ↔ byte < 128 := by
  have hbyte := byte.toNat_lt
  rw [and_eq_zero_iff_testBit byte (show (0x80 : UInt8).toNat = 2 ^ 7 from rfl),
    Nat.testBit_eq_decide_div_mod_eq, UInt8.lt_iff_toNat_lt, decide_eq_false_iff_not]
  show _ ↔ byte.toNat < 128
  omega

theorem testBit_six (byte : UInt8) : byte.toNat.testBit 6 = true ↔ 64 ≤ byte.toNat % 128 := by
  rw [Nat.testBit_eq_decide_div_mod_eq, decide_eq_true_eq]
  omega

/-! ### Numbers of groups -/

/-- The number that a list of groups denotes. -/
def ofGroups : List UInt8 → Nat
  | [] => 0
  | byte :: rest => byte.toNat % 128 + 128 * ofGroups rest

theorem ofGroups_eq_ofDigits (number : List UInt8) :
    ofGroups number = Nat.ofDigits 128 (number.map (·.toNat % 128)) := by
  induction number with
  | nil => rfl
  | cons byte rest ih => rw [ofGroups, ih, List.map_cons, Nat.ofDigits_cons]

theorem ofGroups_concat (number : List UInt8) (byte : UInt8) :
    ofGroups (number ++ [byte]) = ofGroups number + 128 ^ number.length * (byte.toNat % 128) := by
  simp only [ofGroups_eq_ofDigits, List.map_append, Nat.ofDigits_append, List.map_cons,
    List.map_nil, Nat.ofDigits_singleton, List.length_map]

theorem ofGroups_lt (number : List UInt8) : ofGroups number < 128 ^ number.length := by
  have hlength : (number.map (·.toNat % 128)).length = number.length := List.length_map ..
  rw [ofGroups_eq_ofDigits, ← hlength]
  refine Nat.ofDigits_lt_base_pow_length (by decide) fun group hgroup => ?_
  obtain ⟨byte, -, rfl⟩ := List.mem_map.mp hgroup
  exact Nat.mod_lt _ (by decide)

theorem two_pow_seven_mul (n : Nat) : 2 ^ (7 * n) = 128 ^ n := pow_mul 2 7 n

/-! ### One more group -/

/-- A number above the first `shift` bits of a word, joined to one in them. -/
theorem or_shiftLeft {low : UInt64} {shift : Nat} (hlow : low.toNat < 2 ^ shift)
    (hshift : shift < 64) (high : UInt64) :
    low ||| high <<< UInt64.ofNat shift = UInt64.ofNat (low.toNat + 2 ^ shift * high.toNat) := by
  obtain ⟨rest, hrest⟩ := Nat.exists_eq_add_of_le (Nat.le_of_lt hshift)
  have hpow : 2 ^ 64 = 2 ^ shift * 2 ^ rest := by rw [hrest, Nat.pow_add]
  have hplace : (UInt64.ofNat shift).toNat % 64 = shift := by
    rw [UInt64.toNat_ofNat']
    omega
  have hhigh : high.toNat <<< shift % 2 ^ 64 = 2 ^ shift * (high.toNat % 2 ^ rest) := by
    rw [Nat.shiftLeft_eq, Nat.mul_comm, hpow, Nat.mul_mod_mul_left]
  -- `high` starts where `low` ends, so that joining the two is adding them
  have hsum : (low.toNat + 2 ^ shift * high.toNat) % 2 ^ 64 =
      2 ^ shift * (high.toNat % 2 ^ rest) + low.toNat := by
    rw [hpow, Nat.mod_mul, Nat.add_mul_mod_self_left, Nat.mod_eq_of_lt hlow,
      Nat.add_mul_div_left _ _ (Nat.two_pow_pos shift), Nat.div_eq_of_lt hlow, Nat.zero_add,
      Nat.add_comm]
  rw [← UInt64.toNat_inj, UInt64.toNat_or, UInt64.toNat_shiftLeft, hplace, hhigh,
    UInt64.toNat_ofNat', hsum, Nat.or_comm, Nat.two_pow_add_eq_or_of_lt hlow]

theorem toNat_ofNat_ofGroups {groups : List UInt8} (h : groups.length < 10) :
    (UInt64.ofNat (ofGroups groups)).toNat = ofGroups groups := by
  have hlt := ofGroups_lt groups
  have hle : 128 ^ groups.length ≤ 128 ^ 9 := Nat.pow_le_pow_right (by decide) (by omega)
  rw [UInt64.toNat_ofNat', Nat.mod_eq_of_lt (by omega)]

theorem or_shiftLeft_ofGroups {groups : List UInt8} (h : groups.length < 10) (high : UInt64) :
    UInt64.ofNat (ofGroups groups) ||| high <<< UInt64.ofNat (7 * groups.length) =
      UInt64.ofNat (ofGroups groups + 128 ^ groups.length * high.toNat) := by
  have hlow : (UInt64.ofNat (ofGroups groups)).toNat < 2 ^ (7 * groups.length) := by
    rw [toNat_ofNat_ofGroups h, two_pow_seven_mul]
    exact ofGroups_lt groups
  rw [or_shiftLeft hlow (by omega), toNat_ofNat_ofGroups h, two_pow_seven_mul]

namespace Progress

/-- What has been read after some groups of the number at `offset`. -/
def after (offset : Nat) (groups : List UInt8) : Progress where
  word := UInt64.ofNat (ofGroups groups)
  shift := 7 * groups.length
  position := offset + groups.length

/-- **One more group.** Of the tenth one only the lowest bit is kept. -/
theorem step_after (offset : Nat) {groups : List UInt8} (h : groups.length < 10) (byte : UInt8) :
    (after offset groups).step byte = after offset (groups ++ [byte]) := by
  simp only [step, after, mk.injEq, List.length_append, List.length_singleton]
  refine ⟨?_, by omega, by omega⟩
  rw [or_shiftLeft_ofGroups h, UInt8.toNat_toUInt64, toNat_and_low, ofGroups_concat]

/-- The sign of a number in all higher bits takes the weight of the next group away. -/
theorem signExtended_after (offset : Nat) (groups : List UInt8) (last : UInt8) :
    ((after offset groups).signExtended last).toInt64 =
      Int64.ofInt (ofGroups groups -
        if groups.length ≤ 9 ∧ last.toNat.testBit 6 = true then 2 ^ (7 * groups.length)
        else 0) := by
  have hcond : ((after offset groups).shift < 64 ∧ last &&& 0x40 ≠ 0) ↔
      groups.length ≤ 9 ∧ last.toNat.testBit 6 = true := by
    refine and_congr ?_ ?_
    · show 7 * groups.length < 64 ↔ _
      omega
    · rw [Ne, and_eq_zero_iff_testBit last (show (0x40 : UInt8).toNat = 2 ^ 6 from rfl),
        Bool.not_eq_false]
  unfold signExtended
  by_cases hsign : groups.length ≤ 9 ∧ last.toNat.testBit 6 = true
  · rw [if_pos (hcond.mpr hsign), if_pos hsign]
    show (UInt64.ofNat (ofGroups groups) ||| (-1) <<< UInt64.ofNat (7 * groups.length)).toInt64 = _
    -- ones from the next group on: its weight is missing to a multiple of the size of a word
    have hsum : ((ofGroups groups + 128 ^ groups.length * (-1 : UInt64).toNat : Nat) : Int) =
        (ofGroups groups - 2 ^ (7 * groups.length)) + Int64.size * (128 ^ groups.length : Nat) := by
      rw [show (-1 : UInt64).toNat = Int64.size - 1 from rfl, pow_mul]
      push_cast [Int64.size]
      ring
    rw [or_shiftLeft_ofGroups (by omega), UInt64.toInt64_ofNat', ← Int64.ofInt_eq_ofNat, hsum,
      ← Int64.toInt_inj, Int64.toInt_ofInt, Int64.toInt_ofInt, Int.add_mul_bmod_self_left]
  · rw [if_neg (mt hcond.mp hsign), if_neg hsign, sub_zero]
    show (UInt64.ofNat (ofGroups groups)).toInt64 = _
    rw [UInt64.toInt64_ofNat', Int64.ofInt_eq_ofNat]

end Progress

/-! ### Reading a number -/

section Scan

variable (offset : Nat) {groups : List UInt8}

/-- **One more byte.** It has no place in the word, ends the number, or is a group of it. -/
theorem scan_cons (byte : UInt8) (rest : List UInt8) :
    scan offset (.after offset groups) (byte :: rest) =
      if 10 ≤ groups.length then .error (.overflow offset)
      else if byte < 128 then .ok (.after offset (groups ++ [byte]), byte)
      else scan offset (.after offset (groups ++ [byte])) rest := by
  have hfull : 64 ≤ (Progress.after offset groups).shift ↔ 10 ≤ groups.length := by
    show 64 ≤ 7 * groups.length ↔ _
    omega
  rw [scan]
  simp only [hfull, and_high_eq_zero]
  split_ifs with hten
  · rfl
  · rw [Progress.step_after offset (by omega)]
  · rw [Progress.step_after offset (by omega)]

/-- **A number that ends within ten bytes** is read, whatever follows it. -/
theorem scan_of_ended {init : List UInt8} {last : UInt8} (hinit : ∀ byte ∈ init, ¬ byte < 128)
    (hlast : last < 128) (hlength : groups.length + init.length < 10) (post : List UInt8) :
    scan offset (.after offset groups) (init ++ last :: post) =
      .ok (.after offset (groups ++ init ++ [last]), last) := by
  induction init generalizing groups with
  | nil =>
    rw [List.length_nil] at hlength
    rw [List.nil_append, scan_cons, if_neg (by omega), if_pos hlast, List.append_nil]
  | cons byte rest ih =>
    rw [List.forall_mem_cons] at hinit
    rw [List.length_cons] at hlength
    have hgroups : (groups ++ [byte]).length + rest.length < 10 := by
      rw [List.length_append, List.length_singleton]
      omega
    rw [List.cons_append, scan_cons, if_neg (by omega), if_neg hinit.1, ih hinit.2 hgroups,
      List.append_assoc groups, List.singleton_append]

/-- **A number that does not end within ten bytes** is refused: for its length if there is an
eleventh byte, and else for its missing end. -/
theorem scan_of_open {bytes : List UInt8} (hlength : groups.length ≤ 10)
    (hopen : ∀ byte ∈ bytes.take (10 - groups.length), ¬ byte < 128) :
    scan offset (.after offset groups) bytes =
      .error (if 10 < groups.length + bytes.length then .overflow offset
        else .unexpectedEnd (offset + groups.length + bytes.length)) := by
  induction bytes generalizing groups with
  | nil =>
    rw [List.length_nil, if_neg (by omega)]
    rfl
  | cons byte rest ih =>
    rcases Nat.lt_or_ge groups.length 10 with hroom | hfull
    · -- the byte is one of the first ten, so it does not end the number
      rw [show 10 - groups.length = 9 - groups.length + 1 by omega, List.take_succ_cons,
        List.forall_mem_cons] at hopen
      obtain ⟨hbyte, hrest⟩ := hopen
      have hgroups : (groups ++ [byte]).length = groups.length + 1 := by
        rw [List.length_append, List.length_singleton]
      rw [show 9 - groups.length = 10 - (groups ++ [byte]).length by omega] at hrest
      rw [scan_cons, if_neg (by omega), if_neg hbyte, ih (by omega) hrest, hgroups,
        List.length_cons]
      simp only [Nat.add_assoc, Nat.add_comm 1]
    · rw [scan_cons, if_pos hfull, List.length_cons, if_pos (by omega)]

end Scan

/-! ### Reading at an offset -/

/-- The number at the offset ends with `last`, and `init` stands before it. -/
structure EndsAt (bytes : List UInt8) (offset : Nat) (init : List UInt8) (last : UInt8) : Prop where
  exists_drop : ∃ post, bytes.drop offset = init ++ last :: post
  init_high : ∀ byte ∈ init, ¬ byte < 128
  last_low : last < 128

section Read

variable {bytes init : List UInt8} {offset : Nat} {last : UInt8}

theorem EndsAt.scan_eq (h : EndsAt bytes offset init last) (hlength : init.length < 10) :
    scan offset { position := offset } (bytes.drop offset) =
      .ok (.after offset (init ++ [last]), last) := by
  obtain ⟨post, hdrop⟩ := h.exists_drop
  rw [hdrop]
  exact scan_of_ended offset h.init_high h.last_low (by rw [List.length_nil]; omega) post

theorem position_after (offset : Nat) (groups : List UInt8) :
    (Progress.after offset groups).position - offset = groups.length :=
  Nat.add_sub_cancel_left ..

theorem EndsAt.readUnsigned_eq (h : EndsAt bytes offset init last) (hlength : init.length < 10) :
    readUnsigned bytes offset =
      .ok (UInt64.ofNat (ofGroups (init ++ [last])), (init ++ [last]).length) := by
  rw [readUnsigned, h.scan_eq hlength]
  simp only [position_after]
  rfl

theorem EndsAt.readSigned_eq (h : EndsAt bytes offset init last) (hlength : init.length < 10) :
    readSigned bytes offset =
      .ok (Int64.ofInt (ofGroups (init ++ [last]) -
          if (init ++ [last]).length ≤ 9 ∧ last.toNat.testBit 6 = true then
            2 ^ (7 * (init ++ [last]).length) else 0),
        (init ++ [last]).length) := by
  rw [readSigned, h.scan_eq hlength]
  simp only [position_after, Progress.signExtended_after]

/-- The error of a number that does not end within ten bytes. -/
def openError (bytes : List UInt8) (offset : Nat) : DecodeError :=
  if offset + 11 ≤ bytes.length then .overflow offset else .unexpectedEnd (max offset bytes.length)

theorem read_of_open (h : ∀ byte ∈ (bytes.drop offset).take 10, ¬ byte < 128) :
    readUnsigned bytes offset = .error (openError bytes offset) ∧
      readSigned bytes offset = .error (openError bytes offset) := by
  have hnone : ([] : List UInt8).length ≤ 10 := Nat.zero_le 10
  have hscan : scan offset { position := offset } (bytes.drop offset) =
      .error (openError bytes offset) := by
    refine Eq.trans (scan_of_open offset hnone h) ?_
    rw [openError, List.length_nil, List.length_drop]
    by_cases heleven : offset + 11 ≤ bytes.length
    · rw [if_pos (by omega), if_pos heleven]
    · have hend : offset + 0 + (bytes.length - offset) = max offset bytes.length := by omega
      rw [if_neg (by omega), if_neg heleven, hend]
  constructor
  · rw [readUnsigned, hscan]
  · rw [readSigned, hscan]

end Read

end WasmBackend.Leb128
