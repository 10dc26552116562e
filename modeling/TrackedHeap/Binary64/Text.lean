import TrackedHeap.Binary64.Decimal

/-!
# TrackedHeap.Binary64.Text

**The text** of a floating point number: its shortest decimal, written out in full with
at least one place while the number is neither very large nor very small, and with a
power of ten otherwise.
-/

namespace TrackedHeap

namespace Binary64

/-- The power of ten of the first digit. -/
def Decimal.order (d : Decimal) : Int := d.exponent + (toString d.digits).length - 1

/-- The decimal written out in full, with one place at least. -/
def Decimal.inFull (d : Decimal) : String :=
  let digits := toString d.digits
  if 0 ≤ d.exponent then digits ++ "".pushn '0' d.exponent.toNat ++ ".0"
  else
    let places := (-d.exponent).toNat
    let padded := "".pushn '0' (places + 1 - digits.length) ++ digits
    let whole := padded.length - places
    String.ofList (padded.toList.take whole) ++ "." ++ String.ofList (padded.toList.drop whole)

/-- The decimal with one digit before the point, and its power of ten. -/
def Decimal.withPower (d : Decimal) : String :=
  match (toString d.digits).toList with
  | [] => ""
  | [digit] => digit.toString ++ "e" ++ toString d.order
  | digit :: rest => digit.toString ++ "." ++ String.ofList rest ++ "e" ++ toString d.order

/-- The text of an absolute value that is neither infinite nor not a number: in full
from `0.0001` on and below `10 ^ 16`. -/
def Decimal.text (d : Decimal) : String :=
  if -4 ≤ d.order ∧ d.order < 16 then d.inFull else d.withPower

/-- The text of a number. -/
def text (x : Binary64) : String :=
  let sign := if x.isNegative then "-" else ""
  if x.isNaN then "NaN"
  else if x.magnitude = infinityMagnitude then sign ++ "inf"
  else sign ++ x.shortest.text

end Binary64

end TrackedHeap
