/-! # Binary floating-point formats

A float is held as its bit pattern. A pattern of a *format* denotes a NaN, an infinity or the exact
number `± significand · 2 ^ exponent`, and `FloatFormat.round` gives the pattern that is nearest to
such a number, ties going to the even significand. Integers are taken from floats by truncation
toward zero, clamped to a range. All arithmetic is exact, on integers. -/

namespace WasmBackend

/-- Widths of the fraction and exponent fields of a bit pattern; the sign bit stands above them. -/
structure FloatFormat where
  fractionBits : Nat
  exponentBits : Nat

/-- What a bit pattern denotes. -/
inductive FloatValue
  | nan (negative : Bool)
  | infinite (negative : Bool)
  /-- The number `significand · 2 ^ exponent`, negated if `negative`. -/
  | finite (negative : Bool) (significand : Nat) (exponent : Int)
  deriving DecidableEq

namespace FloatValue

/-- The sign bit is set. -/
def isNegative : FloatValue → Bool
  | nan negative | infinite negative | finite negative _ _ => negative

/-- The integer part of `significand · 2 ^ exponent`. -/
def integerPart (significand : Nat) (exponent : Int) : Nat :=
  if 0 ≤ exponent then significand * Nat.pow 2 exponent.toNat
  else significand / Nat.pow 2 (-exponent).toNat

/-- `v`, or the end of the range `lo ≤ v ≤ hi` that it lies beyond. -/
def clamp (lo hi v : Int) : Int :=
  if v < lo then lo else if hi < v then hi else v

/-- The value truncated toward zero and clamped to a range; a NaN gives zero. -/
def toIntClamped (lo hi : Int) : FloatValue → Int
  | nan _ => 0
  | infinite true => lo
  | infinite false => hi
  | finite true significand exponent => clamp lo hi (-(integerPart significand exponent : Int))
  | finite false significand exponent => clamp lo hi (integerPart significand exponent)

end FloatValue

namespace FloatFormat

/-- Format of the type `f32`. -/
def binary32 : FloatFormat := ⟨23, 8⟩

/-- Format of the type `f64`. -/
def binary64 : FloatFormat := ⟨52, 11⟩

/-- Weight of the implicit leading bit of a normal significand. -/
def hiddenBit (f : FloatFormat) : Nat := Nat.pow 2 f.fractionBits

/-- The exponent field of infinities and NaNs. -/
def topExponent (f : FloatFormat) : Nat := Nat.pow 2 f.exponentBits - 1

/-- Weight of the sign bit. -/
def signBit (f : FloatFormat) : Nat := Nat.pow 2 (f.fractionBits + f.exponentBits)

/-- Exponent of the smallest positive number. -/
def minExponent (f : FloatFormat) : Int :=
  2 - (Nat.pow 2 (f.exponentBits - 1) : Nat) - f.fractionBits

/-- The pattern of positive infinity. -/
def infinity (f : FloatFormat) : Nat := f.topExponent * f.hiddenBit

/-- The value that a bit pattern denotes. -/
def decode (f : FloatFormat) (bits : Nat) : FloatValue :=
  let fraction := bits % f.hiddenBit
  let exponent := bits / f.hiddenBit % (f.topExponent + 1)
  let negative := decide (f.signBit ≤ bits)
  if exponent = f.topExponent then
    if fraction = 0 then .infinite negative else .nan negative
  else if exponent = 0 then .finite negative fraction f.minExponent
  else .finite negative (f.hiddenBit + fraction) (f.minExponent + (exponent - 1))

/-- `n / Nat.pow 2 shift` rounded to the nearest integer, ties to even. -/
def roundShift (n shift : Nat) : Nat :=
  let quotient := n / Nat.pow 2 shift
  let remainder := n % Nat.pow 2 shift
  if 2 * remainder < Nat.pow 2 shift then quotient
  else if Nat.pow 2 shift < 2 * remainder then quotient + 1
  else quotient + quotient % 2

/-- The pattern nearest to the number `significand · 2 ^ exponent`. The significand is brought to the
width of the format, or to the smallest exponent if that is larger, and a carry out of the rounding
runs into the exponent field. -/
def roundMagnitude (f : FloatFormat) (significand : Nat) (exponent : Int) : Nat :=
  if significand = 0 then 0
  else
    let target := max f.minExponent (exponent + significand.log2 - f.fractionBits)
    let rounded :=
      if target ≤ exponent then significand * Nat.pow 2 (exponent - target).toNat
      else roundShift significand (target - exponent).toNat
    min f.infinity ((target - f.minExponent).toNat * f.hiddenBit + rounded)

/-- The pattern nearest to a value, ties to even. A NaN gives the quiet NaN of its sign. -/
def round (f : FloatFormat) (value : FloatValue) : Nat :=
  let magnitude :=
    match value with
    | .nan _ => f.infinity + f.hiddenBit / 2
    | .infinite _ => f.infinity
    | .finite _ significand exponent => f.roundMagnitude significand exponent
  if value.isNegative then f.signBit + magnitude else magnitude

/-- The pattern nearest to an integer, ties to even. -/
def ofInt (f : FloatFormat) (v : Int) : Nat :=
  f.round (.finite (decide (v < 0)) v.natAbs 0)

end FloatFormat

/-! ### The two formats of the target -/

/-- A 32-bit float, held as its bit pattern. -/
structure F32 where
  bits : UInt32
  deriving DecidableEq

/-- A 64-bit float, held as its bit pattern. -/
structure F64 where
  bits : UInt64
  deriving DecidableEq

namespace F32

/-- What the bit pattern denotes. -/
def value (x : F32) : FloatValue := FloatFormat.binary32.decode x.bits.toNat

/-- The float nearest to a value. -/
def round (v : FloatValue) : F32 := ⟨UInt32.ofNat (FloatFormat.binary32.round v)⟩

/-- The float nearest to an integer. -/
def ofInt (v : Int) : F32 := ⟨UInt32.ofNat (FloatFormat.binary32.ofInt v)⟩

end F32

namespace F64

/-- What the bit pattern denotes. -/
def value (x : F64) : FloatValue := FloatFormat.binary64.decode x.bits.toNat

/-- The float nearest to a value. -/
def round (v : FloatValue) : F64 := ⟨UInt64.ofNat (FloatFormat.binary64.round v)⟩

/-- The float nearest to an integer. -/
def ofInt (v : Int) : F64 := ⟨UInt64.ofNat (FloatFormat.binary64.ofInt v)⟩

end F64

end WasmBackend
