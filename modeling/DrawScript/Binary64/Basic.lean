/-!
# Binary64 numbers

Real literals denote 64-bit floating point numbers. Only reading and writing them matters here, so
a number is kept as its bit pattern and both directions are computed with natural numbers: nothing
depends on the arithmetic of a processor.

A positive finite number is `significand * 2 ^ scale` with `scale ≥ -1074`. Reading rounds the
exact quotient to the nearest such number, a tie going to the even significand, and what is too
large becomes infinite.
-/

namespace DrawScript

/-- A 64-bit floating point number, by its bits. -/
structure Binary64 where
  bits : UInt64
  deriving DecidableEq, Repr

namespace Binary64

/-! ## Parts -/

/-- The bits below the sign. -/
def magnitude (x : Binary64) : Nat :=
  x.bits.toNat % Nat.pow 2 63

/-- Is the sign bit set? -/
def isNegative (x : Binary64) : Bool :=
  decide (Nat.pow 2 63 ≤ x.bits.toNat)

/-- Neither infinite nor a mark for "no number". -/
def isFinite (x : Binary64) : Bool :=
  decide (x.magnitude < 0x7ff * Nat.pow 2 52)

/-- The mark for "no number". -/
def isNaN (x : Binary64) : Bool :=
  decide (0x7ff * Nat.pow 2 52 < x.magnitude)

/-- Zero of either sign. -/
def isZero (x : Binary64) : Bool :=
  x.magnitude == 0

/-- The significand and the scale of the magnitude, which is `significand * 2 ^ scale`. -/
def parts (x : Binary64) : Nat × Int :=
  let field : Nat := x.magnitude / Nat.pow 2 52
  let fraction : Nat := x.magnitude % Nat.pow 2 52
  if field = 0 then (fraction, -1074) else (fraction + Nat.pow 2 52, (field : Int) - 1075)

/-- The number with the given magnitude bits and sign. -/
def ofMagnitude (negative : Bool) (magnitude : Nat) : Binary64 :=
  ⟨UInt64.ofNat (magnitude + if negative then Nat.pow 2 63 else 0)⟩

/-! ## Rounding a quotient -/

/-- The integer nearest to `num / den`, a tie going to the even one. -/
def roundDiv (num den : Nat) : Nat :=
  let q := num / den
  let r := num % den
  if 2 * r < den then q
  else if den < 2 * r then q + 1
  else q + q % 2

/-- The largest `k` with `2 ^ k ≤ num / den`. -/
def log2Ratio (num den : Nat) : Int :=
  let k : Int := (Nat.log2 num : Int) - (Nat.log2 den : Int)
  let fits := if 0 ≤ k then den * Nat.pow 2 k.toNat ≤ num
    else den ≤ num * Nat.pow 2 (-k).toNat
  if fits then k else k - 1

/-- The magnitude bits of the number nearest to `num / den`; infinity if that is out of range. -/
def magnitudeOfRatio (num den : Nat) : Nat :=
  if num = 0 then 0
  else
    let scale : Int := max (log2Ratio num den - 52) (-1074)
    let significand :=
      if 0 ≤ scale then roundDiv num (den * Nat.pow 2 scale.toNat)
      else roundDiv (num * Nat.pow 2 (-scale).toNat) den
    min ((scale + 1074).toNat * Nat.pow 2 52 + significand) (0x7ff * Nat.pow 2 52)

/-- The number of decimal digits of `n`; zero has none. -/
def digitCount (n : Nat) : Nat :=
  if n = 0 then 0 else (Nat.toDigits 10 n).length

/-- The number nearest to `digits * 10 ^ exponent`. Exponents that are far out of range are decided
by the place of the first digit, so no huge power is computed. -/
def ofScientific (negative : Bool) (digits : Nat) (exponent : Int) : Binary64 :=
  let place := (digitCount digits : Int) + exponent
  ofMagnitude negative <|
    if digits = 0 ∨ place < -330 then 0
    else if 310 < place then 0x7ff * Nat.pow 2 52
    else if 0 ≤ exponent then magnitudeOfRatio (digits * Nat.pow 10 exponent.toNat) 1
    else magnitudeOfRatio digits (Nat.pow 10 (-exponent).toNat)

end Binary64

end DrawScript
