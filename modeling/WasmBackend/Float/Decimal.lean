import WasmBackend.Float.Format

/-! # Shortest decimals

The text of a float is the shortest decimal that reads back as the same float. Reals that round to
a float form an interval around it. Of all decimals in that interval the shortest is a multiple of
the largest power of ten that has a multiple there, so the search goes down through the powers of
ten and stops at the first hit. On each grid only the two neighbours of the float can be the
nearest hit; of two hits the nearer is taken, and the upper one if they are equally near.

Decimals are written positionally, without an exponent, and whole numbers without a point. -/

namespace WasmBackend

/-- The reals that round to a float: `lower`, `value` and `upper`, all times `2 ^ exponent`. -/
structure RoundingInterval where
  lower : Nat
  value : Nat
  upper : Nat
  exponent : Int
  /-- The ends round to the float too. -/
  closed : Bool

namespace RoundingInterval

/-- What a multiple of `2 ^ exponent` is scaled by, to be compared with a scaled multiple of
`10 ^ k`. -/
def binaryScale (i : RoundingInterval) (k : Int) : Nat :=
  Nat.pow 2 i.exponent.toNat * Nat.pow 10 (-k).toNat

/-- What a multiple of `10 ^ k` is scaled by, to be compared with a scaled multiple of
`2 ^ exponent`. -/
def decimalScale (i : RoundingInterval) (k : Int) : Nat :=
  Nat.pow 10 k.toNat * Nat.pow 2 (-i.exponent).toNat

/-- The largest multiple of `10 ^ k` that is not above the value. -/
def below (i : RoundingInterval) (k : Int) : Nat :=
  i.value * i.binaryScale k / i.decimalScale k

/-- `n · 10 ^ k` lies in the interval. -/
def contains (i : RoundingInterval) (n : Nat) (k : Int) : Bool :=
  let point := n * i.decimalScale k
  let lower := i.lower * i.binaryScale k
  let upper := i.upper * i.binaryScale k
  if i.closed then lower ≤ point && point ≤ upper else lower < point && point < upper

/-- The multiple of `10 ^ k` in the interval that is nearest to the value, if there is one. -/
def nearest? (i : RoundingInterval) (k : Int) : Option Nat :=
  let n := i.below k
  match i.contains n k, i.contains (n + 1) k with
  | true, true =>
    if 2 * i.value * i.binaryScale k < (2 * n + 1) * i.decimalScale k then some n
    else some (n + 1)
  | true, false => some n
  | false, true => some (n + 1)
  | false, false => none

/-- The first hit on the grids `10 ^ k`, `10 ^ (k - 1)`, …, and the value itself on the last one. -/
def search (i : RoundingInterval) : (steps : Nat) → (k : Int) → Nat × Int
  | 0, k => (i.below k, k)
  | steps + 1, k =>
    match i.nearest? k with
    | some n => (n, k)
    | none => i.search steps (k - 1)

/-- The shortest decimal `n · 10 ^ k` in the interval. The search starts above the interval and ends
on a grid that the value lies on. -/
def shortest (i : RoundingInterval) : Nat × Int :=
  let first := (Nat.toDigits 10 (FloatValue.integerPart i.upper i.exponent)).length
  let last := min i.exponent 0
  i.search (first - last).toNat first

end RoundingInterval

/-- The decimal `n · 10 ^ k` without an exponent. -/
def positional (n : Nat) (k : Int) : List Char :=
  let digits := Nat.toDigits 10 n
  if 0 ≤ k then digits ++ List.replicate k.toNat '0'
  else
    let places := (-k).toNat
    let padded := List.replicate (places + 1 - digits.length) '0' ++ digits
    let whole := padded.length - places
    padded.take whole ++ '.' :: padded.drop whole

namespace FloatFormat

/-- The reals that round to `significand · 2 ^ exponent`. The gap below a power of two is half the
gap above it, except at the smallest exponent. -/
def interval (f : FloatFormat) (significand : Nat) (exponent : Int) : RoundingInterval where
  lower :=
    if significand = f.hiddenBit ∧ f.minExponent < exponent then 4 * significand - 1
    else 4 * significand - 2
  value := 4 * significand
  upper := 4 * significand + 2
  exponent := exponent - 2
  closed := significand % 2 = 0

/-- Text of a value of the format. -/
def text (f : FloatFormat) : FloatValue → String
  | .nan _ => "NaN"
  | .infinite true => "-inf"
  | .infinite false => "inf"
  | .finite negative significand exponent =>
    let digits :=
      if significand = 0 then ['0']
      else
        let (n, k) := (f.interval significand exponent).shortest
        positional n k
    String.ofList (if negative then '-' :: digits else digits)

end FloatFormat

/-- Shortest decimal that reads back as the same 32-bit float. -/
def F32.text (x : F32) : String := FloatFormat.binary32.text x.value

/-- Shortest decimal that reads back as the same 64-bit float. -/
def F64.text (x : F64) : String := FloatFormat.binary64.text x.value

end WasmBackend
