import Stave.Decimal.Shortest

/-!
# Writing numbers

A layout is the list of decisions that turn the shortest digits of a double into text: when to write
the number positionally and when with an exponent, what marks a whole number, and the words for the
values that are not finite.
-/

namespace Stave.Decimal

/-- How to write a double. -/
structure Layout where
  /-- The decimal points that are written positionally; outside of them an exponent is used. -/
  positional : Int → Bool
  /-- What follows the digits of a positional whole number. -/
  wholeMark : String
  /-- The sign of an exponent that is not negative. -/
  exponentPlus : String
  nan : String
  infinity : String

namespace Layout

/-- Without exponents, and whole numbers without a point. -/
def plain : Layout :=
  { positional := fun _ => true, wholeMark := "", exponentPlus := "", nan := "NaN", infinity := "inf" }

/-- A positional number: digits, point, digits. -/
def placePoint (wholeMark : String) (d : Digits) : String :=
  let count : Int := d.digits.length
  if d.point ≤ 0 then
    "0." ++ String.ofList (List.replicate (-d.point).toNat '0' ++ d.digits)
  else if count ≤ d.point then
    String.ofList (d.digits ++ List.replicate (d.point - count).toNat '0') ++ wholeMark
  else
    String.ofList (d.digits.take d.point.toNat) ++ "."
      ++ String.ofList (d.digits.drop d.point.toNat)

/-- A number with an exponent: one digit, a point if more digits follow, the exponent. -/
def placeExponent (exponentPlus : String) (d : Digits) : String :=
  let exponent := d.point - 1
  let lead := String.ofList (d.digits.take 1)
  let rest := String.ofList (d.digits.drop 1)
  lead ++ (if rest.isEmpty then "" else "." ++ rest) ++ "e"
    ++ (if exponent < 0 then "" else exponentPlus) ++ toString exponent

/-- The text of a double.  The sign is written whenever the sign bit is set, also on zero. -/
def write (layout : Layout) (x : Float) : String :=
  if x.isNaN then layout.nan
  else
    let sign := if Binary.isNegative x then "-" else ""
    match Binary.ofFloat? x with
    | none => sign ++ layout.infinity
    | some b =>
      if b.mantissa = 0 then sign ++ "0" ++ layout.wholeMark
      else
        let d := shortest b
        sign ++ (if layout.positional d.point then placePoint layout.wholeMark d
          else placeExponent layout.exponentPlus d)

end Layout

end Stave.Decimal
