import Stave.Decimal.Binary
import Stave.Text.Digit

/-!
# Reading numbers

The decimal number of a text: digits with an optional point among or beside them and an optional
exponent.  The result is the nearest double.
-/

namespace Stave.Decimal

/-- A decimal read from text: `mantissa * 10 ^ exponent`. -/
structure Scientific where
  mantissa : Nat
  exponent : Int
deriving DecidableEq, Repr

namespace Scientific

/-- The nearest double.  A magnitude outside the range of doubles is decided by the number of digits
alone, so that no huge power of ten is computed. -/
def toFloat (s : Scientific) : Float :=
  let magnitude : Int := (Nat.toDigits 10 s.mantissa).length + s.exponent
  if s.mantissa = 0 ∨ magnitude < -330 then 0
  else if 310 < magnitude then Float.ofBits (UInt64.ofNat Binary.infinityBits)
  else Binary.ofRatio (s.mantissa * Nat.pow 10 s.exponent.toNat) (Nat.pow 10 (-s.exponent).toNat)

/-- A whole number with an optional sign. -/
def readExponent? : List Char → Option Int
  | '-' :: digits => natural? digits |>.map fun n => -(n : Int)
  | '+' :: digits => natural? digits |>.map fun n => (n : Int)
  | digits => natural? digits |>.map fun n => (n : Int)
where
  /-- A non-empty run of digits. -/
  natural? (digits : List Char) : Option Nat :=
    if digits ≠ [] ∧ digits.all Char.isDigit then some (Text.natOfDigits digits) else none

/-- Reads an unsigned decimal that takes up the whole text.  There is at least one digit before the
exponent; the point may stand at either end. -/
def read? (text : List Char) : Option Scientific :=
  let whole := text.takeWhile Char.isDigit
  let afterWhole := text.dropWhile Char.isDigit
  let (fraction, rest) := match afterWhole with
    | '.' :: more => (more.takeWhile Char.isDigit, more.dropWhile Char.isDigit)
    | _ => ([], afterWhole)
  if whole = [] ∧ fraction = [] then none
  else
    let mantissa := Text.natOfDigits (whole ++ fraction)
    match rest with
    | [] => some ⟨mantissa, -fraction.length⟩
    | e :: more =>
      if e = 'e' ∨ e = 'E' then
        (readExponent? more).map fun n => ⟨mantissa, n - fraction.length⟩
      else none

end Scientific

/-- The text without a leading sign, and whether that sign was a minus. -/
def splitSign : List Char → Bool × List Char
  | '-' :: rest => (true, rest)
  | '+' :: rest => (false, rest)
  | text => (false, text)

/-- Reads a double from a whole text: an optional sign, then a decimal or, in any letter case, one of
the words `inf`, `infinity` and `nan`. -/
def readFloat? (text : List Char) : Option Float :=
  let (negative, body) := splitSign text
  let word := String.ofList (body.map Char.toLower)
  let magnitude :=
    if word = "inf" ∨ word = "infinity" then some (1.0 / 0.0)
    else if word = "nan" then some (0.0 / 0.0)
    else (Scientific.read? body).map Scientific.toFloat
  magnitude.map fun x => if negative then -x else x

end Stave.Decimal
