import DrawScript.Binary64.Basic

/-!
# The shortest digits of a number

A finite number is written with the fewest decimal digits that read back as it. The reals that
round to a number form an interval around it, closed if its significand is even. For one digit, two
digits and so on, the two neighbours of the number on the decimal grid of that width are tested
against the interval; the first grid with a hit wins, and of two hits the nearer. If both are
equally near, the `Tie` decides.

Everything is measured in quarters of the last binary place, so that the ends of the interval are
whole numbers.
-/

namespace DrawScript.Binary64

/-- A positive decimal number `digits * 10 ^ exponent`. -/
structure Decimal where
  digits : Nat
  exponent : Int
  deriving DecidableEq, Repr

namespace Decimal

/-- Drops zeros at the end of the digits, at most `fuel` of them. -/
def stripZeros : (fuel : Nat) → Decimal → Decimal
  | 0, d => d
  | fuel + 1, d =>
    if d.digits % 10 = 0 ∧ d.digits ≠ 0 then stripZeros fuel ⟨d.digits / 10, d.exponent + 1⟩ else d

/-- The digits as text. -/
def text (d : Decimal) : String :=
  Nat.repr d.digits

/-- How many digits stand before the decimal point; zero or less if the number is below one tenth
of its first digit's place. -/
def point (d : Decimal) : Int :=
  (d.text.length : Int) + d.exponent

end Decimal

/-- Which of two neighbours is taken if both are equally near. -/
inductive Tie where
  | toEven
  | upward
  deriving DecidableEq, Repr

/-- The choice between `n` and `n + 1`. -/
def Tie.choose (n : Nat) : Tie → Nat
  | toEven => n + n % 2
  | upward => n + 1

/-- The interval of a number in quarters of its last binary place: lower end, value, upper end. The
number below a power of two is only half as far away as the number above it. -/
def quarters (x : Binary64) : Nat × Nat × Nat :=
  let (significand, scale) := x.parts
  let below := if significand = Nat.pow 2 52 ∧ -1074 < scale then 1 else 2
  (4 * significand - below, 4 * significand, 4 * significand + 2)

/-- The largest `k` with `10 ^ k ≤ num / den`, searched downwards from `k`. -/
def log10From (num den : Nat) : (fuel : Nat) → Int → Int
  | 0, k => k
  | fuel + 1, k =>
    let fits := if 0 ≤ k then den * Nat.pow 10 k.toNat ≤ num
      else den ≤ num * Nat.pow 10 (-k).toNat
    if fits then k else log10From num den fuel (k - 1)

/-- The candidate with the given exponent, if a neighbour of `value` on that grid lies in the
interval; all three are fractions with denominator `den`. -/
def onGrid (tie : Tie) (low value high den : Nat) (closed : Bool) (exponent : Int) :
    Option Decimal :=
  let (up, down) := if 0 ≤ exponent then (1, Nat.pow 10 exponent.toNat)
    else (Nat.pow 10 (-exponent).toNat, 1)
  let unit := den * down
  let floor := value * up / unit
  let inside (n : Nat) : Bool :=
    let scaled := n * unit
    if closed then low * up ≤ scaled && scaled ≤ high * up
    else low * up < scaled && scaled < high * up
  let below := value * up - floor * unit
  let above := (floor + 1) * unit - value * up
  let nearer :=
    if below < above then floor else if above < below then floor + 1 else tie.choose floor
  if inside floor && inside (floor + 1) then some ⟨nearer, exponent⟩
  else if inside floor then some ⟨floor, exponent⟩
  else if inside (floor + 1) then some ⟨floor + 1, exponent⟩
  else none

/-- The shortest decimal that reads back as the magnitude of `x`, which is finite and not zero. -/
def shortest (tie : Tie) (x : Binary64) : Decimal :=
  let (significand, scale) := x.parts
  let (low, value, high) := x.quarters
  let shift := scale - 2
  let (up, den) := if 0 ≤ shift then (Nat.pow 2 shift.toNat, 1)
    else (1, Nat.pow 2 (-shift).toNat)
  let (low, value, high) := (low * up, value * up, high * up)
  let guess := ((Nat.log2 value : Int) - (Nat.log2 den : Int) + 1) * 30103 / 100000 + 1
  let top := log10From value den 4 guess
  let closed := significand % 2 == 0
  let hit := (List.range 17).findSome? fun (n : Nat) ↦
    onGrid tie low value high den closed (top - (n : Int))
  (hit.getD ⟨0, 0⟩).stripZeros 20

end DrawScript.Binary64
