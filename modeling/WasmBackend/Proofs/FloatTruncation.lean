import Mathlib.Algebra.Order.Field.Power
import Mathlib.Data.Rat.Floor
import WasmBackend.Proofs.FloatRounding
import WasmBackend.Proofs.IntegerConversions

/-! # Floats truncated to integers

The fields of a bit pattern say what it denotes: a NaN, an infinity or a rational number. A float is
converted to the integer that the law `FloatFormat.Saturates` asks for: zero for a NaN, an end of the
destination range for an infinity, and otherwise the number truncated toward zero and clamped to the
range.

* `denotes_decode`: what is decoded from a pattern is what its fields say;
* `Denotes.saturates`: truncation of a decoded value obeys the law, for every range;
* `fold_saturates`: hence all conversions from floats to integers do, and a 32-bit integer passes
  through a 64-bit float unchanged. -/

namespace WasmBackend

/-! ### Fields of a pattern -/

namespace FloatFormat

/-- The sign bit is set. -/
def signField (f : FloatFormat) (bits : Nat) : Bool := bits.testBit (f.fractionBits + f.exponentBits)

def exponentField (f : FloatFormat) (bits : Nat) : Nat :=
  bits / 2 ^ f.fractionBits % 2 ^ f.exponentBits

def fractionField (f : FloatFormat) (bits : Nat) : Nat := bits % 2 ^ f.fractionBits

/-- The exponent field of the numbers from one to two. -/
def bias (f : FloatFormat) : Int := 2 ^ (f.exponentBits - 1) - 1

/-- The exponent field is not all ones. -/
def IsFinite (f : FloatFormat) (bits : Nat) : Prop := f.exponentField bits ≠ 2 ^ f.exponentBits - 1

def IsInfinite (f : FloatFormat) (bits : Nat) : Prop := ¬ f.IsFinite bits ∧ f.fractionField bits = 0

def IsNaN (f : FloatFormat) (bits : Nat) : Prop := ¬ f.IsFinite bits ∧ f.fractionField bits ≠ 0

/-- The sign of a number as a factor. -/
def signFactor (negative : Bool) : ℚ := if negative then -1 else 1

/-- The number that a finite pattern denotes. The fraction has a leading one in front of it, unless
the exponent field is zero. -/
def rational (f : FloatFormat) (bits : Nat) : ℚ :=
  let fraction : ℚ := f.fractionField bits / 2 ^ f.fractionBits
  signFactor (f.signField bits) *
    if f.exponentField bits = 0 then fraction * 2 ^ (1 - f.bias)
    else (1 + fraction) * 2 ^ (f.exponentField bits - f.bias)

/-- The value is what the fields of the pattern say. -/
def Denotes (f : FloatFormat) (bits : Nat) : FloatValue → Prop
  | .nan _ => f.IsNaN bits
  | .infinite negative => f.IsInfinite bits ∧ negative = f.signField bits
  | .finite negative significand exponent =>
    f.IsFinite bits ∧ f.rational bits = signFactor negative * (significand * 2 ^ exponent)

variable {f : FloatFormat} {bits : Nat}

theorem exponentField_eq : f.exponentField bits = bits / f.hiddenBit % (f.topExponent + 1) := by
  rw [topExponent_succ]
  rfl

theorem signField_eq (h : bits < 2 * f.signBit) :
    f.signField bits = decide (f.signBit ≤ bits) := by
  have hpos : 0 < f.signBit := Nat.two_pow_pos _
  rw [signField, Nat.testBit_eq_decide_div_mod_eq]
  show decide (bits / f.signBit % 2 = 1) = _
  refine decide_eq_decide.mpr ?_
  by_cases hsign : f.signBit ≤ bits
  · have hquotient : bits / f.signBit = 1 :=
      Nat.div_eq_of_lt_le (by omega) (by omega)
    simp [hquotient, hsign]
  · simp [Nat.div_eq_of_lt (Nat.not_le.mp hsign), hsign]

theorem minExponent_eq : f.minExponent = 1 - f.bias - f.fractionBits := by
  unfold minExponent bias
  rw [Nat.pow_eq]
  push_cast
  ring

theorem mul_zpow_sub (m : ℚ) (e : Int) :
    m / 2 ^ f.fractionBits * 2 ^ e = m * 2 ^ (e - f.fractionBits) := by
  rw [zpow_sub₀ two_ne_zero, zpow_natCast]
  ring

/-- **What is decoded from a pattern** is what its fields say. -/
theorem denotes_decode (h : bits < 2 * f.signBit) : f.Denotes bits (f.decode bits) := by
  have hfraction : bits % f.hiddenBit = f.fractionField bits := rfl
  have hhidden : (f.hiddenBit : ℚ) = 2 ^ f.fractionBits := by
    rw [hiddenBit, Nat.pow_eq, Nat.cast_pow, Nat.cast_ofNat]
  unfold decode
  dsimp only
  rw [← exponentField_eq, ← signField_eq h, hfraction]
  split_ifs with htop hzero hsubnormal
  · exact ⟨⟨fun hfinite => hfinite htop, hzero⟩, rfl⟩
  · exact ⟨fun hfinite => hfinite htop, hzero⟩
  · refine ⟨htop, ?_⟩
    rw [rational, if_pos hsubnormal, mul_zpow_sub, minExponent_eq]
  · refine ⟨htop, ?_⟩
    have hnormal : 1 + (f.fractionField bits : ℚ) / 2 ^ f.fractionBits =
        (f.hiddenBit + f.fractionField bits : ℚ) / 2 ^ f.fractionBits := by
      rw [hhidden]
      field_simp
    rw [rational, if_neg hsubnormal, hnormal, mul_zpow_sub, minExponent_eq]
    push_cast
    congr 3
    ring

end FloatFormat

/-! ### Truncation -/

/-- The integer that is left of a number without its fraction. -/
def truncate (q : ℚ) : Int := if 0 ≤ q then ⌊q⌋ else ⌈q⌉

theorem truncate_intCast (z : Int) : truncate z = z := by
  unfold truncate
  split <;> simp

theorem truncate_neg (q : ℚ) : truncate (-q) = -truncate q := by
  unfold truncate
  rcases lt_trichotomy q 0 with hneg | rfl | hpos
  · rw [if_pos (by linarith), if_neg (by linarith), Int.floor_neg]
  · simp
  · rw [if_neg (by linarith), if_pos hpos.le, Int.ceil_neg]

namespace FloatValue

theorem truncate_eq_integerPart (significand : Nat) (exponent : Int) :
    truncate (significand * 2 ^ exponent) = integerPart significand exponent := by
  have hnonneg : (0 : ℚ) ≤ significand * 2 ^ exponent := by positivity
  rw [truncate, if_pos hnonneg, integerPart]
  by_cases hexponent : 0 ≤ exponent
  · obtain ⟨k, rfl⟩ := Int.eq_ofNat_of_zero_le hexponent
    have hwhole : (significand : ℚ) * 2 ^ (k : Int) = ((significand * 2 ^ k : Nat) : ℚ) := by
      push_cast
      rw [zpow_natCast]
    rw [if_pos hexponent, hwhole, Int.floor_natCast]
    rfl
  · obtain ⟨k, hk⟩ := Int.eq_ofNat_of_zero_le (show 0 ≤ -exponent by omega)
    have hquotient : (significand : ℚ) * 2 ^ exponent = (significand : ℚ) / ((2 ^ k : Nat) : ℚ) := by
      push_cast
      rw [← neg_neg exponent, hk, zpow_neg, zpow_natCast, div_eq_mul_inv]
    rw [if_neg hexponent, hquotient, Rat.floor_natCast_div_natCast, hk]
    rfl

theorem truncate_finite (negative : Bool) (significand : Nat) (exponent : Int) :
    truncate (FloatFormat.signFactor negative * (significand * 2 ^ exponent)) =
      if negative then -(integerPart significand exponent : Int)
      else integerPart significand exponent := by
  cases negative with
  | false => simp [FloatFormat.signFactor, truncate_eq_integerPart]
  | true =>
    have hneg : FloatFormat.signFactor true * (significand * 2 ^ exponent : ℚ) =
        -(significand * 2 ^ exponent) := by
      rw [FloatFormat.signFactor, if_pos rfl]
      ring
    rw [hneg, truncate_neg, truncate_eq_integerPart, if_pos rfl]

end FloatValue

/-! ### Clamping -/

namespace IntegerRange

/-- The last integer of the range. -/
def upper (r : IntegerRange) : Int := r.lower + 2 ^ r.bits - 1

/-- The integer of the range that is nearest to `z`. -/
def clamp (r : IntegerRange) (z : Int) : Int := max r.lower (min z r.upper)

theorem lower_le_upper (r : IntegerRange) : r.lower ≤ r.upper := by
  have hpos : (0 : Int) < 2 ^ r.bits := Int.pow_pos (by decide)
  unfold upper
  omega

theorem clamp_eq (r : IntegerRange) (z : Int) : FloatValue.clamp r.lower r.upper z = r.clamp z := by
  have hrange := r.lower_le_upper
  unfold FloatValue.clamp clamp
  split_ifs <;> omega

theorem contains_clamp (r : IntegerRange) (z : Int) : r.Contains (r.clamp z) := by
  have hrange := r.lower_le_upper
  unfold clamp Contains upper at *
  omega

theorem clamp_of_contains {r : IntegerRange} {z : Int} (h : r.Contains z) : r.clamp z = z := by
  unfold Contains at h
  unfold clamp upper
  omega

end IntegerRange

/-! ### The law -/

/-- **What a float becomes as an integer of a range.** -/
structure FloatFormat.Saturates (f : FloatFormat) (bits : Nat) (r : IntegerRange) (z : Int) :
    Prop where
  nan : f.IsNaN bits → z = 0
  infinite : f.IsInfinite bits → z = if f.signField bits then r.lower else r.upper
  finite : f.IsFinite bits → z = r.clamp (truncate (f.rational bits))

theorem FloatFormat.Denotes.saturates {f : FloatFormat} {bits : Nat} {v : FloatValue}
    (h : f.Denotes bits v) (r : IntegerRange) :
    f.Saturates bits r (v.toIntClamped r.lower r.upper) := by
  cases v with
  | nan negative =>
    exact ⟨fun _ => rfl, fun hinfinite => absurd hinfinite.2 h.2, fun hfinite => absurd hfinite h.1⟩
  | infinite negative =>
    obtain ⟨hinfinite, rfl⟩ := h
    refine ⟨fun hnan => absurd hinfinite.2 hnan.2, fun _ => ?_,
      fun hfinite => absurd hfinite hinfinite.1⟩
    cases f.signField bits <;> rfl
  | finite negative significand exponent =>
    obtain ⟨hfinite, hrational⟩ := h
    refine ⟨fun hnan => absurd hfinite hnan.1, fun hinfinite => absurd hfinite hinfinite.1,
      fun _ => ?_⟩
    rw [hrational, FloatValue.truncate_finite]
    cases negative <;> exact r.clamp_eq _

theorem IntegerRange.contains_toIntClamped {r : IntegerRange} (h : r.Contains 0) (v : FloatValue) :
    r.Contains (v.toIntClamped r.lower r.upper) := by
  have hends : r.Contains r.lower ∧ r.Contains r.upper := by
    have hrange := r.lower_le_upper
    unfold Contains upper at *
    omega
  rcases v with negative | negative | ⟨negative, significand, exponent⟩
  · exact h
  · cases negative
    · exact hends.2
    · exact hends.1
  · cases negative <;>
    · rw [FloatValue.toIntClamped, r.clamp_eq]
      exact r.contains_clamp _

namespace Conversion

open IntegerRange

theorem toInt_toInt32 (v : FloatValue) :
    (toInt32 v).toInt = v.toIntClamped (signed 32).lower (signed 32).upper := by
  have hlower : (signed 32).lower = -0x80000000 := by decide
  have hupper : (signed 32).upper = 0x7fffffff := by decide
  obtain ⟨hlow, hhigh⟩ := contains_toIntClamped (r := signed 32) (by decide) v
  rw [toInt32, ← hlower, ← hupper]
  exact Int32.toInt_ofInt_of_le hlow hhigh

theorem toInt_toInt64 (v : FloatValue) :
    (toInt64 v).toInt = v.toIntClamped (signed 64).lower (signed 64).upper := by
  have hlower : (signed 64).lower = -0x8000000000000000 := by decide
  have hupper : (signed 64).upper = 0x7fffffffffffffff := by decide
  obtain ⟨hlow, hhigh⟩ := contains_toIntClamped (r := signed 64) (by decide) v
  rw [toInt64, ← hlower, ← hupper]
  exact Int64.toInt_ofInt_of_le hlow hhigh

theorem signFactor_mul_natAbs (z : Int) :
    FloatFormat.signFactor (decide (z < 0)) * (z.natAbs : ℚ) = z := by
  unfold FloatFormat.signFactor
  rw [Nat.cast_natAbs]
  by_cases hneg : z < 0
  · rw [if_pos (decide_eq_true hneg), abs_of_neg hneg]
    push_cast
    ring
  · rw [if_neg (by simpa using hneg), abs_of_nonneg (Int.not_lt.mp hneg), one_mul]

/-- **A 32-bit integer is a 64-bit float:** the pattern that is nearest to it denotes it. -/
theorem rational_ofInt (n : Int32) :
    FloatFormat.binary64.IsFinite (F64.ofInt n.toInt).bits.toNat ∧
      FloatFormat.binary64.rational (F64.ofInt n.toInt).bits.toNat = n.toInt := by
  have hsmall : n.toInt.natAbs < 2 ^ 53 := by
    have hrange := contains_signed_32 n
    simp only [Contains, signed] at hrange
    omega
  obtain ⟨k, hvalue⟩ := F64.value_ofInt hsmall
  have hdenotes : FloatFormat.binary64.Denotes _ (F64.ofInt n.toInt).value :=
    FloatFormat.denotes_decode (F64.ofInt n.toInt).toNat_bits_lt
  rw [hvalue] at hdenotes
  obtain ⟨hfinite, hrational⟩ := hdenotes
  have hscale : ((n.toInt.natAbs * 2 ^ k : Nat) : ℚ) * 2 ^ (0 - k : Int) = n.toInt.natAbs := by
    rw [zero_sub, zpow_neg, zpow_natCast]
    push_cast
    field_simp
  refine ⟨hfinite, hrational.trans ?_⟩
  rw [hscale, signFactor_mul_natAbs]

theorem saturates_of_denotes {f : FloatFormat} {bits : Nat} {v : FloatValue}
    (h : f.Denotes bits v) :
    f.Saturates bits (signed 32) (toInt32 v).toInt ∧
      f.Saturates bits (signed 64) (toInt64 v).toInt := by
  refine ⟨?_, ?_⟩
  · rw [toInt_toInt32]
    exact h.saturates _
  · rw [toInt_toInt64]
    exact h.saturates _

/-- A 32-bit integer that was made a 64-bit float is got back: truncation and clamping leave an
integer of the range as it is. -/
theorem toInt32_ofInt (n : Int32) : toInt32 (F64.ofInt n.toInt).value = n := by
  obtain ⟨hfinite, hrational⟩ := rational_ofInt n
  have hdenotes := FloatFormat.denotes_decode (F64.ofInt n.toInt).toNat_bits_lt
  have hvalue := (saturates_of_denotes hdenotes).1.finite hfinite
  rw [hrational, truncate_intCast, clamp_of_contains (contains_signed_32 n)] at hvalue
  exact Int32.toInt_inj.mp hvalue

/-- **Conversions from floats to integers saturate exactly.** On every bit pattern of a float the
conversions give what the fields of the pattern ask for: zero for a NaN, an end of the range for an
infinity, and otherwise the denoted number truncated toward zero and clamped to the range. A 32-bit
integer is kept by a 64-bit float, and converted back to itself. -/
theorem fold_saturates :
    (∀ x : F32, ∃ n l, f2i.fold (.f32 x) = .ok (.i32 n) ∧ f2l.fold (.f32 x) = .ok (.i64 l) ∧
      FloatFormat.binary32.Saturates x.bits.toNat (signed 32) n.toInt ∧
      FloatFormat.binary32.Saturates x.bits.toNat (signed 64) l.toInt) ∧
    (∀ x : F64, ∃ n l, d2i.fold (.f64 x) = .ok (.i32 n) ∧ d2l.fold (.f64 x) = .ok (.i64 l) ∧
      FloatFormat.binary64.Saturates x.bits.toNat (signed 32) n.toInt ∧
      FloatFormat.binary64.Saturates x.bits.toNat (signed 64) l.toInt) ∧
    ∀ n : Int32, ∃ x, i2d.fold (.i32 n) = .ok (.f64 x) ∧
      FloatFormat.binary64.IsFinite x.bits.toNat ∧
      FloatFormat.binary64.rational x.bits.toNat = n.toInt ∧
      d2i.fold (.f64 x) = .ok (.i32 n) := by
  refine ⟨fun x => ?_, fun x => ?_, fun n => ?_⟩
  · have hdenotes := FloatFormat.denotes_decode x.toNat_bits_lt
    exact ⟨_, _, rfl, rfl, saturates_of_denotes hdenotes⟩
  · have hdenotes := FloatFormat.denotes_decode x.toNat_bits_lt
    exact ⟨_, _, rfl, rfl, saturates_of_denotes hdenotes⟩
  · obtain ⟨hfinite, hrational⟩ := rational_ofInt n
    have hback : d2i.fold (.f64 (F64.ofInt n.toInt)) =
        .ok (.i32 (toInt32 (F64.ofInt n.toInt).value)) := rfl
    rw [toInt32_ofInt] at hback
    exact ⟨_, rfl, hfinite, hrational, hback⟩

/-- The largest 32-bit float below `2 ^ 31`, its successor, and a number between two integers. -/
example :
    f2i.fold (.f32 ⟨0x4effffff⟩) = .ok (.i32 2147483520) ∧
      f2i.fold (.f32 ⟨0x4f000000⟩) = .ok (.i32 2147483647) ∧
      FloatFormat.binary32.rational 0xc0200000 = -5 / 2 ∧
      f2l.fold (.f32 ⟨0xc0200000⟩) = .ok (.i64 (-2)) := by
  decide +kernel

end Conversion

end WasmBackend
