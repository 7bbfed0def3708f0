import Mathlib.Algebra.Order.Group.Nat
import WasmBackend.Float.Format

/-! # Exact rounding

A finite pattern without its sign bit is `offset · hiddenBit + significand`, for one *canonical* pair
of a significand and an offset above the least exponent. A leading bit of the significand runs into
the exponent field, so the same sum serves normal and subnormal numbers.

Rounding undoes decoding (`round_decode`) and depends on the number alone, not on the way it is
split into significand and exponent (`roundMagnitude_scale`). A number whose significand is short
enough is rounded to itself (`decode_round_of_short`), so integers below `2 ^ 53` and all 32-bit
floats pass through a 64-bit float unchanged (`F64.value_ofInt`, `F32.round_widen`). -/

namespace WasmBackend

namespace FloatFormat

variable {f : FloatFormat}

theorem hiddenBit_pos : 0 < f.hiddenBit := Nat.pow_pos (by decide)

theorem topExponent_succ : f.topExponent + 1 = Nat.pow 2 f.exponentBits :=
  Nat.sub_add_cancel (Nat.pow_pos (by decide))

theorem signBit_eq : f.signBit = (f.topExponent + 1) * f.hiddenBit := by
  rw [topExponent_succ, signBit, hiddenBit, Nat.mul_comm]
  exact Nat.pow_add 2 f.fractionBits f.exponentBits

theorem infinity_lt_signBit : f.infinity < f.signBit := by
  rw [signBit_eq, infinity, Nat.succ_mul]
  have := f.hiddenBit_pos
  omega

/-! ### Canonical pairs -/

/-- The significand and exponent field of a finite number: the significand has its leading bit unless
the exponent is the least. -/
structure Canonical (f : FloatFormat) (significand offset : Nat) : Prop where
  short : significand < 2 * f.hiddenBit
  normal : f.hiddenBit ≤ significand ∨ offset = 0
  finite : offset + 1 < f.topExponent

/-- The pattern of a canonical pair, without the sign bit. -/
def pattern (f : FloatFormat) (significand offset : Nat) : Nat :=
  offset * f.hiddenBit + significand

/-- A pattern with its sign bit. -/
def signed (f : FloatFormat) (negative : Bool) (magnitude : Nat) : Nat :=
  if negative then f.signBit + magnitude else magnitude

theorem Canonical.pattern_lt {m p : Nat} (h : f.Canonical m p) : f.pattern m p < f.infinity := by
  have hle : (p + 2) * f.hiddenBit ≤ f.topExponent * f.hiddenBit :=
    Nat.mul_le_mul_right _ h.finite
  have := h.short
  rw [Nat.add_mul] at hle
  unfold pattern infinity
  omega

theorem fields_signed (negative : Bool) {n : Nat} (h : n < f.signBit) :
    f.signed negative n % f.hiddenBit = n % f.hiddenBit ∧
      f.signed negative n / f.hiddenBit % (f.topExponent + 1) = n / f.hiddenBit ∧
      decide (f.signBit ≤ f.signed negative n) = negative := by
  have hquotient : n / f.hiddenBit < f.topExponent + 1 :=
    Nat.div_lt_of_lt_mul (by rwa [Nat.mul_comm, ← signBit_eq])
  cases negative with
  | false =>
    refine ⟨rfl, Nat.mod_eq_of_lt hquotient, ?_⟩
    exact decide_eq_false (Nat.not_le.mpr h)
  | true =>
    have hsigned : f.signed true n = n + f.hiddenBit * (f.topExponent + 1) := by
      rw [signed, if_pos rfl, signBit_eq, Nat.mul_comm, Nat.add_comm]
    refine ⟨?_, ?_, ?_⟩
    · rw [hsigned, Nat.add_mul_mod_self_left]
    · rw [hsigned, Nat.add_mul_div_left _ _ hiddenBit_pos, Nat.add_mod_right,
        Nat.mod_eq_of_lt hquotient]
    · exact decide_eq_true (Nat.le_add_right _ _)

theorem decode_pattern {m p : Nat} (h : f.Canonical m p) (negative : Bool) :
    f.decode (f.signed negative (f.pattern m p)) = .finite negative m (f.minExponent + p) := by
  obtain ⟨hfraction, hexponent, hsign⟩ :=
    fields_signed negative (h.pattern_lt.trans infinity_lt_signBit)
  have hfinite := h.finite
  unfold decode
  dsimp only
  rw [hfraction, hexponent, hsign]
  by_cases hm : m < f.hiddenBit
  · -- A subnormal number: the whole significand is the fraction.
    obtain rfl : p = 0 := h.normal.resolve_left (Nat.not_le.mpr hm)
    have hpattern : f.pattern m 0 = m := by simp [pattern]
    rw [hpattern, Nat.div_eq_of_lt hm, Nat.mod_eq_of_lt hm, if_neg (by omega), if_pos rfl]
    simp
  · -- A normal number: its leading bit is one more in the exponent field.
    have hshort := h.short
    have hpattern : f.pattern m p = (m - f.hiddenBit) + f.hiddenBit * (p + 1) := by
      rw [pattern, Nat.mul_add, Nat.mul_comm p]
      omega
    have hrest : m - f.hiddenBit < f.hiddenBit := by omega
    rw [hpattern, Nat.add_mul_mod_self_left, Nat.add_mul_div_left _ _ hiddenBit_pos,
      Nat.mod_eq_of_lt hrest, Nat.div_eq_of_lt hrest, if_neg (by omega), if_neg (by omega)]
    congr 1
    · omega
    · omega

/-- Every pattern is the signed pattern of a canonical pair, an infinity or a NaN. -/
theorem decode_cases (hf : 1 < f.topExponent) {bits : Nat} (h : bits < 2 * f.signBit) :
    (∃ negative, f.decode bits = .nan negative) ∨
    (∃ negative, f.decode bits = .infinite negative ∧ bits = f.signed negative f.infinity) ∨
    ∃ negative m p, f.Canonical m p ∧ bits = f.signed negative (f.pattern m p) := by
  obtain ⟨negative, n, hn, rfl⟩ : ∃ negative n, n < f.signBit ∧ bits = f.signed negative n := by
    by_cases hsign : f.signBit ≤ bits
    · refine ⟨true, bits - f.signBit, by omega, ?_⟩
      rw [signed, if_pos rfl]
      omega
    · exact ⟨false, bits, Nat.not_le.mp hsign, rfl⟩
  obtain ⟨hfraction, hexponent, hsign⟩ := fields_signed negative hn
  have hparts : f.hiddenBit * (n / f.hiddenBit) + n % f.hiddenBit = n := Nat.div_add_mod _ _
  have hrest : n % f.hiddenBit < f.hiddenBit := Nat.mod_lt _ hiddenBit_pos
  have hquotient : n / f.hiddenBit < f.topExponent + 1 :=
    Nat.div_lt_of_lt_mul (by rwa [Nat.mul_comm, ← signBit_eq])
  by_cases htop : n / f.hiddenBit = f.topExponent
  · by_cases hzero : n % f.hiddenBit = 0
    · refine .inr (.inl ⟨negative, ?_, ?_⟩)
      · simp [decode, hfraction, hexponent, hsign, htop, hzero]
      · rw [infinity, ← htop, Nat.mul_comm]
        congr 1
        omega
    · refine .inl ⟨negative, ?_⟩
      simp [decode, hfraction, hexponent, hsign, htop, hzero]
  · refine .inr (.inr ?_)
    by_cases hzero : n / f.hiddenBit = 0
    · refine ⟨negative, n, 0, ⟨?_, .inr rfl, hf⟩, by simp [pattern]⟩
      rw [hzero] at hparts
      omega
    · refine ⟨negative, f.hiddenBit + n % f.hiddenBit, n / f.hiddenBit - 1,
        ⟨by omega, .inl (by omega), by omega⟩, ?_⟩
      · congr 1
        rw [pattern, Nat.sub_mul, Nat.one_mul, Nat.mul_comm]
        have := Nat.le_mul_of_pos_right f.hiddenBit (Nat.pos_of_ne_zero hzero)
        omega

/-! ### Rounding -/

theorem round_finite (negative : Bool) (m : Nat) (e : Int) :
    f.round (.finite negative m e) = f.signed negative (f.roundMagnitude m e) := rfl

theorem log2_mul_two_pow {m : Nat} (hm : m ≠ 0) (k : Nat) : (m * 2 ^ k).log2 = m.log2 + k := by
  induction k with
  | zero => simp
  | succ k ih =>
    have hpos : m * 2 ^ k ≠ 0 := Nat.mul_ne_zero hm (Nat.two_pow_pos k).ne'
    rw [Nat.pow_succ, ← Nat.mul_assoc, Nat.mul_comm _ 2, Nat.log2_two_mul hpos, ih, Nat.add_assoc]

theorem roundShift_scale (n shift k : Nat) :
    roundShift (n * 2 ^ k) (shift + k) = roundShift n shift := by
  have hk := Nat.two_pow_pos k
  simp only [roundShift, Nat.pow_eq, Nat.pow_add, Nat.mul_div_mul_right _ _ hk,
    Nat.mul_mod_mul_right, ← Nat.mul_assoc, Nat.mul_lt_mul_right hk]

theorem roundShift_multiple (n shift : Nat) : roundShift (n * 2 ^ shift) shift = n := by
  have h := Nat.two_pow_pos shift
  simp [roundShift, h]

/-- The significand brought to the exponent `target`. -/
def shiftTo (target : Int) (m : Nat) (e : Int) : Nat :=
  if target ≤ e then m * Nat.pow 2 (e - target).toNat else roundShift m (target - e).toNat

theorem shiftTo_scale (target : Int) (m : Nat) (e : Int) (k : Nat) :
    shiftTo target (m * 2 ^ k) e = shiftTo target m (e + k) := by
  unfold shiftTo
  by_cases h : target ≤ e
  · rw [if_pos h, if_pos (by omega), Nat.mul_assoc]
    congr 1
    have : (e + k - target).toNat = k + (e - target).toNat := by omega
    rw [this]
    exact (Nat.pow_add 2 _ _).symm
  · rw [if_neg h]
    by_cases hk : target ≤ e + k
    · -- The shift only takes back a part of the scaling.
      rw [if_pos hk]
      have hsplit : m * 2 ^ k = m * 2 ^ (e + k - target).toNat * 2 ^ (target - e).toNat := by
        rw [Nat.mul_assoc, ← Nat.pow_add]
        congr 2
        omega
      rw [hsplit, roundShift_multiple]
      rfl
    · rw [if_neg hk]
      have : (target - e).toNat = (target - (e + k)).toNat + k := by omega
      rw [this, roundShift_scale]

theorem roundMagnitude_eq {m : Nat} (hm : m ≠ 0) (e : Int) :
    f.roundMagnitude m e =
      let target := max f.minExponent (e + m.log2 - f.fractionBits)
      min f.infinity ((target - f.minExponent).toNat * f.hiddenBit + shiftTo target m e) := by
  rw [roundMagnitude, if_neg hm]
  rfl

/-- **Rounding depends on the number alone:** a power of two may move between the significand and the
exponent. -/
theorem roundMagnitude_scale (m : Nat) (e : Int) (k : Nat) :
    f.roundMagnitude (m * 2 ^ k) e = f.roundMagnitude m (e + k) := by
  by_cases hm : m = 0
  · subst hm
    simp [roundMagnitude]
  · have hscaled : m * 2 ^ k ≠ 0 := Nat.mul_ne_zero hm (Nat.two_pow_pos k).ne'
    rw [roundMagnitude_eq hm, roundMagnitude_eq hscaled, log2_mul_two_pow hm, Int.natCast_add]
    have : e + (m.log2 + k : Int) = e + k + m.log2 := by omega
    simp only [this, shiftTo_scale]

theorem log2_lt_of_lt {m : Nat} (h : m < 2 * f.hiddenBit) (hm : m ≠ 0) :
    m.log2 ≤ f.fractionBits := by
  rw [← Nat.lt_succ_iff, Nat.log2_lt hm, Nat.pow_succ, Nat.mul_comm]
  exact h

theorem le_log2_of_le {m : Nat} (h : f.hiddenBit ≤ m) : f.fractionBits ≤ m.log2 :=
  (Nat.le_log2 (Nat.ne_of_gt (hiddenBit_pos.trans_le h))).mpr h

theorem roundMagnitude_pattern {m p : Nat} (h : f.Canonical m p) :
    f.roundMagnitude m (f.minExponent + p) = f.pattern m p := by
  by_cases hm : m = 0
  · have hp : p = 0 := by
      refine h.normal.resolve_left fun hle => ?_
      have := f.hiddenBit_pos
      omega
    simp [roundMagnitude, pattern, hm, hp]
  · rw [roundMagnitude_eq hm]
    have hlog := log2_lt_of_lt h.short hm
    -- The significand already stands at the exponent that rounding aims at.
    have htarget : max f.minExponent (f.minExponent + p + m.log2 - f.fractionBits) =
        f.minExponent + p := by
      rcases h.normal with hnormal | rfl
      · have := le_log2_of_le hnormal
        omega
      · omega
    have hzero : (f.minExponent + p - f.minExponent).toNat = p := by omega
    have hlt := h.pattern_lt
    simp only [htarget, shiftTo, le_refl, if_true, Int.sub_self, Int.toNat_zero, Nat.pow_eq,
      Nat.pow_zero, Nat.mul_one, hzero]
    exact Nat.min_eq_right hlt.le

/-- **Rounding undoes decoding**, except that a NaN loses its payload. -/
theorem round_decode (hf : 1 < f.topExponent) {bits : Nat} (h : bits < 2 * f.signBit)
    (hnan : ∀ negative, f.decode bits ≠ .nan negative) : f.round (f.decode bits) = bits := by
  obtain ⟨negative, hdecode⟩ | ⟨negative, hdecode, rfl⟩ | ⟨negative, m, p, hcanonical, rfl⟩ :=
    decode_cases hf h
  · exact absurd hdecode (hnan negative)
  · rw [hdecode]
    rfl
  · rw [decode_pattern hcanonical, round_finite, roundMagnitude_pattern hcanonical]

/-- A short significand above the least exponent can be scaled to a canonical one. -/
theorem exists_canonical {m : Nat} (hm : m < 2 * f.hiddenBit) {offset : Nat}
    (hoffset : offset + 1 < f.topExponent) :
    ∃ k ≤ offset, f.Canonical (m * 2 ^ k) (offset - k) := by
  by_cases hzero : m = 0
  · refine ⟨offset, le_rfl, ?_, .inr (Nat.sub_self _), by omega⟩
    have := f.hiddenBit_pos
    simp [hzero, this]
  have hlog := log2_lt_of_lt hm hzero
  have hlower : 2 ^ m.log2 ≤ m := Nat.log2_self_le hzero
  have hupper : m < 2 ^ (m.log2 + 1) := Nat.lt_log2_self
  refine ⟨min offset (f.fractionBits - m.log2), Nat.min_le_left _ _, ?_, ?_, by omega⟩
  · calc m * 2 ^ min offset (f.fractionBits - m.log2)
        ≤ m * 2 ^ (f.fractionBits - m.log2) :=
          Nat.mul_le_mul_left _ (Nat.pow_le_pow_right (by decide) (Nat.min_le_right _ _))
      _ < 2 ^ (m.log2 + 1) * 2 ^ (f.fractionBits - m.log2) :=
          Nat.mul_lt_mul_of_pos_right hupper (Nat.two_pow_pos _)
      _ = 2 * f.hiddenBit := by
          rw [← Nat.pow_add, hiddenBit, Nat.pow_eq, ← Nat.pow_succ']
          congr 1
          omega
  · rcases Nat.le_total offset (f.fractionBits - m.log2) with hle | hle
    · exact .inr (by omega)
    · refine .inl ?_
      rw [Nat.min_eq_right hle]
      calc f.hiddenBit = 2 ^ m.log2 * 2 ^ (f.fractionBits - m.log2) := by
            rw [← Nat.pow_add, hiddenBit, Nat.pow_eq]
            congr 1
            omega
        _ ≤ m * 2 ^ (f.fractionBits - m.log2) := Nat.mul_le_mul_right _ hlower

/-- **A number with a short significand is rounded to itself:** what the rounded pattern denotes is
the number, with its significand scaled. -/
theorem decode_round_of_short {m : Nat} (hm : m < 2 * f.hiddenBit) {e : Int} (offset : Nat)
    (he : e = f.minExponent + offset) (hoffset : offset + 1 < f.topExponent) (negative : Bool) :
    ∃ k : Nat, f.decode (f.round (.finite negative m e)) = .finite negative (m * 2 ^ k) (e - k) := by
  obtain ⟨k, hk, hcanonical⟩ := exists_canonical hm hoffset
  have hexponent : f.minExponent + ((offset - k : Nat) : Int) = e - k := by omega
  have hround : f.roundMagnitude m e = f.pattern (m * 2 ^ k) (offset - k) := by
    rw [← roundMagnitude_pattern hcanonical, roundMagnitude_scale, hexponent, Int.sub_add_cancel]
  refine ⟨k, ?_⟩
  rw [round_finite, hround, decode_pattern hcanonical, hexponent]

theorem roundMagnitude_le_infinity (m : Nat) (e : Int) : f.roundMagnitude m e ≤ f.infinity := by
  unfold roundMagnitude
  split
  · exact Nat.zero_le _
  · exact Nat.min_le_left _ _

theorem signed_lt (negative : Bool) {n : Nat} (h : n < f.signBit) :
    f.signed negative n < 2 * f.signBit := by
  unfold signed
  split <;> omega

theorem round_lt (v : FloatValue) : f.round v < 2 * f.signBit := by
  cases v with
  | nan negative =>
    have hquiet : f.infinity + f.hiddenBit / 2 < f.signBit := by
      have := f.hiddenBit_pos
      rw [signBit_eq, Nat.succ_mul, infinity]
      omega
    exact signed_lt negative hquiet
  | infinite negative => exact signed_lt negative infinity_lt_signBit
  | finite negative m e =>
    exact signed_lt negative ((f.roundMagnitude_le_infinity m e).trans_lt infinity_lt_signBit)

end FloatFormat

namespace FloatValue

/-- The value is a NaN of either sign. -/
def IsNaN (v : FloatValue) : Prop := ∃ negative, v = .nan negative

theorem integerPart_scale (m : Nat) (e : Int) (k : Nat) :
    integerPart (m * 2 ^ k) (e - k) = integerPart m e := by
  unfold integerPart
  by_cases hk : 0 ≤ e - k
  · have : e.toNat = k + (e - k).toNat := by omega
    rw [if_pos hk, if_pos (by omega), this, Nat.mul_assoc]
    congr 1
    exact (Nat.pow_add 2 _ _).symm
  · rw [if_neg hk]
    by_cases he : 0 ≤ e
    · have hsplit : m * 2 ^ k = m * 2 ^ e.toNat * 2 ^ (-(e - k)).toNat := by
        rw [Nat.mul_assoc, ← Nat.pow_add]
        congr 2
        omega
      rw [if_pos he, hsplit]
      exact Nat.mul_div_cancel _ (Nat.two_pow_pos _)
    · have : (-(e - k)).toNat = (-e).toNat + k := by omega
      rw [if_neg he, this, Nat.pow_eq, Nat.pow_add]
      exact Nat.mul_div_mul_right _ _ (Nat.two_pow_pos k)

end FloatValue

/-! ### The two formats -/

namespace F32

theorem toNat_bits_lt (x : F32) : x.bits.toNat < 2 * FloatFormat.binary32.signBit :=
  x.bits.toNat_lt

theorem toNat_bits_round (v : FloatValue) :
    (round v).bits.toNat = FloatFormat.binary32.round v :=
  UInt32.toNat_ofNat_of_lt' (FloatFormat.round_lt v)

theorem value_round (v : FloatValue) :
    (round v).value = FloatFormat.binary32.decode (FloatFormat.binary32.round v) := by
  rw [value, toNat_bits_round]

theorem round_value {x : F32} (h : ¬ x.value.IsNaN) : round x.value = x := by
  have hround := FloatFormat.round_decode (by decide) x.toNat_bits_lt fun negative hnan =>
    h ⟨negative, hnan⟩
  rw [round, value, hround, UInt32.ofNat_toNat]

theorem isNaN_round {v : FloatValue} (h : v.IsNaN) : (round v).value.IsNaN := by
  obtain ⟨negative, rfl⟩ := h
  rw [value_round]
  exact ⟨negative, by cases negative <;> decide⟩

end F32

namespace F64

theorem toNat_bits_lt (x : F64) : x.bits.toNat < 2 * FloatFormat.binary64.signBit :=
  x.bits.toNat_lt

theorem toNat_bits_round (v : FloatValue) :
    (round v).bits.toNat = FloatFormat.binary64.round v :=
  UInt64.toNat_ofNat_of_lt' (FloatFormat.round_lt v)

theorem value_round (v : FloatValue) :
    (round v).value = FloatFormat.binary64.decode (FloatFormat.binary64.round v) := by
  rw [value, toNat_bits_round]

theorem round_value {x : F64} (h : ¬ x.value.IsNaN) : round x.value = x := by
  have hround := FloatFormat.round_decode (by decide) x.toNat_bits_lt fun negative hnan =>
    h ⟨negative, hnan⟩
  rw [round, value, hround, UInt64.ofNat_toNat]

theorem isNaN_round {v : FloatValue} (h : v.IsNaN) : (round v).value.IsNaN := by
  obtain ⟨negative, rfl⟩ := h
  rw [value_round]
  exact ⟨negative, by cases negative <;> decide⟩

theorem value_ofInt {n : Int} (h : n.natAbs < 2 ^ 53) :
    ∃ k : Nat, (ofInt n).value = .finite (decide (n < 0)) (n.natAbs * 2 ^ k) (0 - k) := by
  have hvalue : (ofInt n).value = (round (.finite (decide (n < 0)) n.natAbs 0)).value := rfl
  rw [hvalue, value_round]
  exact FloatFormat.decode_round_of_short h 1074 (by decide) (by decide) _

end F64

/-- **Widening is exact:** a 32-bit float is kept by a 64-bit float. -/
theorem F32.round_widen {x : F32} (h : ¬ x.value.IsNaN) :
    F32.round (F64.round x.value).value = x := by
  obtain ⟨negative, hnan⟩ | ⟨negative, hinfinite, -⟩ | ⟨negative, m, p, hcanonical, hbits⟩ :=
    FloatFormat.decode_cases (by decide) x.toNat_bits_lt
  · exact absurd ⟨negative, hnan⟩ h
  · have hvalue : x.value = .infinite negative := hinfinite
    have hwide : (F64.round (.infinite negative)).value = .infinite negative := by
      cases negative <;> decide
    rw [hvalue, hwide, ← hvalue, round_value h]
  · have hvalue : x.value = .finite negative m (FloatFormat.binary32.minExponent + p) := by
      rw [value, hbits, FloatFormat.decode_pattern hcanonical]
    have hshort : m < 2 * FloatFormat.binary64.hiddenBit :=
      hcanonical.short.trans (by decide)
    have hfinite : p + 1 < 255 := hcanonical.finite
    have htop : FloatFormat.binary64.topExponent = 2047 := by decide
    -- The exponents of the narrow format start 925 above those of the wide one.
    have hexponent : FloatFormat.binary32.minExponent + p =
        FloatFormat.binary64.minExponent + ((925 + p : Nat) : Int) := by
      have hnarrow : FloatFormat.binary32.minExponent = -149 := by decide
      have hwide : FloatFormat.binary64.minExponent = -1074 := by decide
      omega
    obtain ⟨k, hk⟩ := FloatFormat.decode_round_of_short hshort (925 + p) hexponent (by omega) negative
    have hscale : FloatFormat.binary32.round
          (.finite negative (m * 2 ^ k) (FloatFormat.binary32.minExponent + p - k)) =
        FloatFormat.binary32.round (.finite negative m (FloatFormat.binary32.minExponent + p)) := by
      rw [FloatFormat.round_finite, FloatFormat.roundMagnitude_scale, Int.sub_add_cancel,
        FloatFormat.round_finite]
    rw [hvalue, F64.value_round, hk, round, hscale, ← hvalue]
    exact round_value h

end WasmBackend
