import Mathlib.Data.Int.ModEq
import WasmBackend.Error
import WasmBackend.Lowering

/-! # Conversions between integers

A conversion between integers has three readings: the constant it folds to, the code it is lowered
to, and the law that the result is the operand reduced to the range of the destination. They agree.

* `IntegerRange.Narrows`: the law, an integer of the range congruent to another modulo its size;
* `IntegerCode.run`: execution of the code, on bit patterns;
* `fold_narrows`, `run_code_narrows`: folding and execution obey the law, each for its own reason;
* `fold_integer`: hence they give one value, narrowing is idempotent and widening can be undone. -/

namespace WasmBackend

/-! ### Ranges -/

/-- The `2 ^ bits` integers from `lower` on. -/
structure IntegerRange where
  bits : Nat
  lower : Int
  deriving DecidableEq

namespace IntegerRange

/-- Range of the signed integers of a width. -/
def signed (bits : Nat) : IntegerRange := ⟨bits, -2 ^ (bits - 1)⟩

/-- Range of the unsigned integers of a width. -/
def unsigned (bits : Nat) : IntegerRange := ⟨bits, 0⟩

def Contains (r : IntegerRange) (z : Int) : Prop := r.lower ≤ z ∧ z < r.lower + 2 ^ r.bits

instance (r : IntegerRange) (z : Int) : Decidable (r.Contains z) :=
  inferInstanceAs (Decidable (_ ∧ _))

/-- The integer `z` is what the range keeps of `x`. -/
def Narrows (r : IntegerRange) (x z : Int) : Prop := r.Contains z ∧ z ≡ x [ZMOD 2 ^ r.bits]

variable {r : IntegerRange} {x y z : Int}

theorem Contains.narrows (h : r.Contains x) : r.Narrows x x := ⟨h, .rfl⟩

/-- A range keeps one integer only: two that are congruent differ by less than the modulus. -/
theorem Narrows.eq (hy : r.Narrows x y) (hz : r.Narrows x z) : y = z := by
  obtain ⟨⟨hly, huy⟩, hxy⟩ := hy
  obtain ⟨⟨hlz, huz⟩, hxz⟩ := hz
  have hdvd : (2 : Int) ^ r.bits ∣ z - y := (hxy.trans hxz.symm).dvd
  have hzero : z - y = 0 := Int.eq_zero_of_abs_lt_dvd hdvd (abs_lt.2 ⟨by omega, by omega⟩)
  omega

theorem narrows_bmod (n : Nat) (x : Int) : (signed (n + 1)).Narrows x (x.bmod (2 ^ (n + 1))) := by
  have hpos : 0 < 2 ^ (n + 1) := Nat.two_pow_pos _
  have hsize : ((2 ^ (n + 1) : Nat) : Int) = 2 * 2 ^ n := by rw [Nat.cast_pow, pow_succ']; rfl
  have hlower : -(((2 ^ (n + 1) : Nat) : Int) / 2) ≤ x.bmod (2 ^ (n + 1)) := Int.le_bmod hpos
  have hupper : x.bmod (2 ^ (n + 1)) < (((2 ^ (n + 1) : Nat) : Int) + 1) / 2 := Int.bmod_lt hpos
  have hmod : x.bmod (2 ^ (n + 1)) % (2 ^ (n + 1) : Nat) = x % (2 ^ (n + 1) : Nat) :=
    Int.bmod_emod
  rw [hsize] at hlower hupper
  refine ⟨⟨?_, ?_⟩, ?_⟩
  · show -2 ^ n ≤ x.bmod (2 ^ (n + 1))
    omega
  · show x.bmod (2 ^ (n + 1)) < -2 ^ n + 2 ^ (n + 1)
    rw [pow_succ' (2 : Int)]
    omega
  · simpa [Int.ModEq, signed] using hmod

theorem narrows_emod (n : Nat) (x : Int) : (unsigned n).Narrows x (x % 2 ^ n) := by
  have hpos : (0 : Int) < 2 ^ n := Int.pow_pos (by decide)
  refine ⟨⟨Int.emod_nonneg _ hpos.ne', ?_⟩, Int.mod_modEq _ _⟩
  simpa [unsigned] using Int.emod_lt_of_pos x hpos

end IntegerRange

/-! ### Execution -/

namespace IntegerCode

/-- Keeps the low bits of a pattern. -/
def wrap (n : Nat) {m : Nat} (x : BitVec m) : BitVec n := x.setWidth n

/-- Repeats the sign bit of a pattern in the new bits. -/
def extend (n : Nat) {m : Nat} (x : BitVec m) : BitVec n := x.signExtend n

/-- One instruction on a stack, the topmost value first; nothing if the operands are not on the
stack or the instruction is not in the code of a conversion between integers. -/
def step (stack : List Literal) (op : TargetOp) : Option (List Literal) :=
  match op, stack with
  | .i32Const v, stack => some (.i32 v :: stack)
  | .i64Const v, stack => some (.i64 v :: stack)
  | .plain .i32WrapI64, .i64 v :: stack => some (.i32 (.ofBitVec (wrap 32 v.toBitVec)) :: stack)
  | .plain .i64ExtendI32S, .i32 v :: stack =>
    some (.i64 (.ofBitVec (extend 64 v.toBitVec)) :: stack)
  | .plain .i32Extend8S, .i32 v :: stack =>
    some (.i32 (.ofBitVec (extend 32 (wrap 8 v.toBitVec))) :: stack)
  | .plain .i32Extend16S, .i32 v :: stack =>
    some (.i32 (.ofBitVec (extend 32 (wrap 16 v.toBitVec))) :: stack)
  | .plain .i32And, .i32 v :: .i32 u :: stack =>
    some (.i32 (.ofBitVec (u.toBitVec &&& v.toBitVec)) :: stack)
  | _, _ => none

/-- Runs code on a stack. -/
def run (code : List TargetOp) (stack : List Literal) : Option (List Literal) :=
  code.foldlM step stack

theorem toInt_wrap {n m : Nat} (h : n ≤ m) (x : BitVec m) :
    (wrap n x).toInt = x.toInt.bmod (2 ^ n) := by
  rw [wrap, BitVec.toInt_setWidth, BitVec.toInt_eq_toNat_bmod,
    Int.bmod_bmod_of_dvd (Nat.pow_dvd_pow 2 h)]

theorem toInt_extend {n m : Nat} (h : m ≤ n) (x : BitVec m) : (extend n x).toInt = x.toInt :=
  BitVec.toInt_signExtend_of_le h

theorem toInt_emod_word (x : BitVec 32) : x.toInt % 2 ^ 32 = x.toNat := by
  have hmod : (x.toNat : Int).bmod (2 ^ 32) % (2 ^ 32 : Nat) = x.toNat % (2 ^ 32 : Nat) :=
    Int.bmod_emod
  have hlt : x.toNat < 2 ^ 32 := x.isLt
  rw [BitVec.toInt_eq_toNat_bmod]
  omega

theorem toInt_and_mask (x : BitVec 32) : (x &&& 0xFFFF#32).toInt = x.toInt % 2 ^ 16 := by
  have hmask : (x &&& 0xFFFF#32).toNat = x.toNat % 2 ^ 16 := by
    rw [BitVec.toNat_and]
    exact Nat.and_two_pow_sub_one_eq_mod x.toNat 16
  have hword := toInt_emod_word x
  rw [BitVec.toInt_eq_toNat_of_lt (by omega), hmask]
  omega

end IntegerCode

/-! ### Conversions -/

/-- The number that an integer constant holds. -/
def Literal.toInt? : Literal → Option Int
  | i32 v => some v.toInt
  | i64 v => some v.toInt
  | f32 _ | f64 _ => none

theorem Literal.eq_of_toInt? {v w : Literal} {x : Int} (htype : v.type = w.type)
    (hv : v.toInt? = some x) (hw : w.toInt? = some x) : v = w := by
  cases v <;> cases w <;> simp [toInt?, type] at htype hv hw
  · exact congrArg i32 (Int32.toInt_inj.1 (hv.trans hw.symm))
  · exact congrArg i64 (Int64.toInt_inj.1 (hv.trans hw.symm))

theorem Literal.exists_i32 {v : Literal} (h : v.type = .i32) : ∃ n, v = .i32 n := by
  cases v with
  | i32 n => exact ⟨n, rfl⟩
  | _ => cases h

theorem Literal.exists_i64 {v : Literal} (h : v.type = .i64) : ∃ n, v = .i64 n := by
  cases v with
  | i64 n => exact ⟨n, rfl⟩
  | _ => cases h

namespace Conversion

open IntegerRange IntegerCode

/-- The range of a conversion between integers. -/
def range? : Conversion → Option IntegerRange
  | l2i => some (signed 32)
  | i2b => some (signed 8)
  | i2c => some (unsigned 16)
  | i2s => some (signed 16)
  | i2l => some (signed 64)
  | _ => none

theorem contains_signed_32 (n : Int32) : (signed 32).Contains n.toInt :=
  ⟨Int32.le_toInt n, Int32.toInt_lt n⟩

theorem contains_signed_64 (n : Int32) : (signed 64).Contains n.toInt := by
  have := contains_signed_32 n
  simp only [Contains, signed] at this ⊢
  omega

theorem toInt_char (n : Int32) :
    (Int32.ofNat n.toUInt32.toUInt16.toNat).toInt = n.toInt % 2 ^ 16 := by
  have hword : n.toInt % 2 ^ 32 = n.toUInt32.toNat := toInt_emod_word n.toBitVec
  have hchar : n.toUInt32.toUInt16.toNat = n.toUInt32.toNat % 2 ^ 16 := UInt32.toNat_toUInt16 _
  rw [Int32.toInt_ofNat_of_lt (by omega), hchar]
  omega

variable {c : Conversion} {r : IntegerRange} {v : Literal} {x : Int}

theorem exists_toInt? (hr : c.range? = some r) (hv : v.type = c.popType) :
    ∃ x, v.toInt? = some x := by
  cases c <;> cases hr
  case l2i =>
    obtain ⟨n, rfl⟩ := Literal.exists_i64 hv
    exact ⟨_, rfl⟩
  all_goals
    obtain ⟨n, rfl⟩ := Literal.exists_i32 hv
    exact ⟨_, rfl⟩

/-- Folding keeps of the operand what the range does. -/
theorem fold_narrows (hr : c.range? = some r) (hv : v.type = c.popType) (hx : v.toInt? = some x) :
    ∃ w y, c.fold v = .ok w ∧ w.type = c.pushType ∧ w.toInt? = some y ∧ r.Narrows x y := by
  cases c <;> cases hr
  case l2i =>
    obtain ⟨n, rfl⟩ := Literal.exists_i64 hv
    cases hx
    refine ⟨.i32 n.toInt32, _, rfl, rfl, rfl, ?_⟩
    rw [Int64.toInt_toInt32]
    exact narrows_bmod 31 _
  all_goals
    obtain ⟨n, rfl⟩ := Literal.exists_i32 hv
    cases hx
  case i2b =>
    refine ⟨.i32 n.toInt8.toInt32, _, rfl, rfl, rfl, ?_⟩
    rw [Int8.toInt_toInt32, Int32.toInt_toInt8]
    exact narrows_bmod 7 _
  case i2c =>
    refine ⟨.i32 (.ofNat n.toUInt32.toUInt16.toNat), _, rfl, rfl, rfl, ?_⟩
    rw [toInt_char]
    exact narrows_emod 16 _
  case i2s =>
    refine ⟨.i32 n.toInt16.toInt32, _, rfl, rfl, rfl, ?_⟩
    rw [Int16.toInt_toInt32, Int32.toInt_toInt16]
    exact narrows_bmod 15 _
  case i2l =>
    refine ⟨.i64 n.toInt64, _, rfl, rfl, rfl, ?_⟩
    rw [Int32.toInt_toInt64]
    exact (contains_signed_64 n).narrows

/-- Execution puts in place of the operand what the range keeps of it. -/
theorem run_code_narrows (hr : c.range? = some r) (hv : v.type = c.popType)
    (hx : v.toInt? = some x) :
    ∃ w y, (∀ stack, run c.code (v :: stack) = some (w :: stack)) ∧ w.type = c.pushType ∧
      w.toInt? = some y ∧ r.Narrows x y := by
  cases c <;> cases hr
  case l2i =>
    obtain ⟨n, rfl⟩ := Literal.exists_i64 hv
    cases hx
    refine ⟨.i32 (.ofBitVec (wrap 32 n.toBitVec)), _, fun _ => rfl, rfl, rfl, ?_⟩
    rw [Int32.toInt_ofBitVec, toInt_wrap (by decide)]
    exact narrows_bmod 31 _
  all_goals
    obtain ⟨n, rfl⟩ := Literal.exists_i32 hv
    cases hx
  case i2b =>
    refine ⟨.i32 (.ofBitVec (extend 32 (wrap 8 n.toBitVec))), _, fun _ => rfl, rfl, rfl, ?_⟩
    rw [Int32.toInt_ofBitVec, toInt_extend (by decide), toInt_wrap (by decide)]
    exact narrows_bmod 7 _
  case i2c =>
    refine ⟨.i32 (.ofBitVec (n.toBitVec &&& 0xFFFF#32)), _, fun _ => rfl, rfl, rfl, ?_⟩
    rw [Int32.toInt_ofBitVec, toInt_and_mask]
    exact narrows_emod 16 _
  case i2s =>
    refine ⟨.i32 (.ofBitVec (extend 32 (wrap 16 n.toBitVec))), _, fun _ => rfl, rfl, rfl, ?_⟩
    rw [Int32.toInt_ofBitVec, toInt_extend (by decide), toInt_wrap (by decide)]
    exact narrows_bmod 15 _
  case i2l =>
    refine ⟨.i64 (.ofBitVec (extend 64 n.toBitVec)), _, fun _ => rfl, rfl, rfl, ?_⟩
    rw [Int64.toInt_ofBitVec, toInt_extend (by decide)]
    exact (contains_signed_64 n).narrows

theorem fold_of_contains {w : Literal} (hr : c.range? = some r) (hv : v.type = c.popType)
    (hw : w.type = c.pushType) (hx : v.toInt? = some x) (hwx : w.toInt? = some x)
    (hmem : r.Contains x) : c.fold v = .ok w := by
  obtain ⟨u, y, hfold, hu, hy, hnarrow⟩ := fold_narrows hr hv hx
  obtain rfl : y = x := hnarrow.eq hmem.narrows
  rw [hfold, Literal.eq_of_toInt? (hu.trans hw.symm) hy hwx]

/-- **Conversions between integers.** On every constant of the operand type, folding gives the value
that execution leaves in place of the operand. It holds the one integer of the range that is
congruent to the operand. A conversion that gives the type it takes is idempotent; widening keeps
the integer, and the conversion back returns the operand. -/
theorem fold_integer (hr : c.range? = some r) (hv : v.type = c.popType) :
    ∃ w x y, v.toInt? = some x ∧ w.toInt? = some y ∧ w.type = c.pushType ∧
      c.fold v = .ok w ∧
      (∀ stack, run c.code (v :: stack) = some (w :: stack)) ∧
      (∀ z, r.Narrows x z ↔ z = y) ∧
      (c.popType = c.pushType → c.fold w = .ok w) ∧
      (c = i2l → y = x ∧ l2i.fold w = .ok v) := by
  obtain ⟨x, hx⟩ := exists_toInt? hr hv
  obtain ⟨w, y, hfold, hw, hy, hnarrow⟩ := fold_narrows hr hv hx
  obtain ⟨w', y', hrun, hw', hy', hnarrow'⟩ := run_code_narrows hr hv hx
  -- Both values obey the law, which leaves no choice.
  obtain rfl : y' = y := hnarrow'.eq hnarrow
  obtain rfl : w' = w := Literal.eq_of_toInt? (hw'.trans hw.symm) hy' hy
  refine ⟨w', x, y', hx, hy, hw, hfold, hrun, fun z => ⟨fun hz => hz.eq hnarrow, ?_⟩, ?_, ?_⟩
  · rintro rfl
    exact hnarrow
  · intro htype
    exact fold_of_contains hr (hw.trans htype.symm) hw hy hy hnarrow.1
  · rintro rfl
    cases hr
    obtain ⟨n, rfl⟩ := Literal.exists_i32 hv
    cases hx
    obtain rfl : y' = n.toInt := hnarrow.eq (contains_signed_64 n).narrows
    exact ⟨rfl, fold_of_contains rfl hw hv hy rfl (contains_signed_32 n)⟩

/-- The integer `-1` becomes the last char, which is not its own sign extension, and stays so. -/
theorem fold_integer_last_char :
    i2c.range? = some (unsigned 16) ∧ (Literal.i32 (-1)).type = i2c.popType ∧
      i2c.fold (.i32 (-1)) = .ok (.i32 65535) ∧
      run i2c.code [.i32 (-1), .i64 7] = some [.i32 65535, .i64 7] ∧
      (∀ z, (unsigned 16).Narrows (-1) z ↔ z = 65535) ∧
      i2c.fold (.i32 65535) = .ok (.i32 65535) := by
  obtain ⟨w, x, y, hx, hy, -, hfold, hrun, hlaw, hagain, -⟩ :=
    fold_integer (c := i2c) (r := unsigned 16) (v := .i32 (-1)) rfl rfl
  have hvalue : i2c.fold (.i32 (-1)) = .ok (.i32 65535) := by decide
  obtain rfl : w = .i32 65535 := Except.ok.inj (hfold.symm.trans hvalue)
  obtain rfl : -1 = x := Option.some.inj hx
  obtain rfl : 65535 = y := Option.some.inj hy
  exact ⟨rfl, rfl, hfold, hrun _, hlaw, hagain rfl⟩

end Conversion

end WasmBackend
