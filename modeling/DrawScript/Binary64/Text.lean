import DrawScript.Binary64.Shortest

/-!
# Writing numbers

Three places write a number, each from its shortest digits. The data formats stay positional as long
as the decimal point lies near the digits, keep a fraction on whole numbers, and use an exponent
otherwise; they differ in the sign of a positive exponent and in what stands for a value that is not
finite. Settings write every number positionally and without an empty fraction. Between two
candidates that are equally near, the data formats take the even one and settings the upper one.
-/

namespace DrawScript.Binary64

/-- How a data format writes numbers. -/
structure Style where
  /-- Stands between the mark of a positive exponent and its digits. -/
  exponentSign : String
  infinity : String
  negativeInfinity : String
  notANumber : String

/-- A run of zeros. -/
def zeros (n : Nat) : String :=
  String.ofList (List.replicate n '0')

/-- The digits before and behind the decimal point, if it lies `point` digits from the left. -/
def splitAt (digits : String) (point : Nat) : String × String :=
  (String.ofList (digits.toList.take point), String.ofList (digits.toList.drop point))

/-- A decimal in the notation of the data formats: positional if the point lies behind one to
sixteen digits or before at most five zeros, and with an exponent otherwise. -/
def Decimal.scientific (style : Style) (d : Decimal) : String :=
  let digits := d.text
  let point := d.point
  if 0 < point ∧ point ≤ 16 then
    if 0 ≤ d.exponent then digits ++ zeros d.exponent.toNat ++ ".0"
    else
      let (whole, fraction) := splitAt digits point.toNat
      whole ++ "." ++ fraction
  else if -5 < point ∧ point ≤ 0 then "0." ++ zeros (-point).toNat ++ digits
  else
    let (first, more) := splitAt digits 1
    let mantissa := if more.isEmpty then first else first ++ "." ++ more
    let exponent := point - 1
    mantissa ++ "e" ++ (if exponent < 0 then "-" else style.exponentSign) ++ exponent.natAbs.repr

/-- A decimal with all its zeros and no exponent. -/
def Decimal.positional (d : Decimal) : String :=
  let digits := d.text
  let point := d.point
  if 0 ≤ d.exponent then digits ++ zeros d.exponent.toNat
  else if 0 < point then
    let (whole, fraction) := splitAt digits point.toNat
    whole ++ "." ++ fraction
  else "0." ++ zeros (-point).toNat ++ digits

/-- A number in the notation of a data format. -/
def write (style : Style) (x : Binary64) : String :=
  let sign := if x.isNegative then "-" else ""
  if x.isNaN then style.notANumber
  else if !x.isFinite then if x.isNegative then style.negativeInfinity else style.infinity
  else if x.isZero then sign ++ "0.0"
  else sign ++ (x.shortest .toEven).scientific style

/-- A number as a setting. -/
def setting (x : Binary64) : String :=
  let sign := if x.isNegative then "-" else ""
  if x.isNaN then "NaN"
  else if !x.isFinite then sign ++ "inf"
  else if x.isZero then sign ++ "0"
  else sign ++ (x.shortest .upward).positional

end DrawScript.Binary64
