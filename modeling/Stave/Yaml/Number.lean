import Stave.Decimal.Layout
import Stave.Decimal.Reader

/-!
# Numbers in a document

Which plain scalars are numbers.  Whole numbers may be written in base ten, or behind `0x`, `0o` and
`0b` in base sixteen, eight and two; a run of digits that begins with a needless zero is no number.
Whole numbers are limited to 64 bits: one that has between 64 and 128 bits is an error, and beyond
that only its decimal form is read, as a double.
-/

namespace Stave.Yaml

/-- A number of a document. -/
inductive Number
  | whole (n : Int)
  | float (x : Float)
deriving Repr

namespace Number

/-- How the doubles of a document are written back. -/
def layout : Decimal.Layout :=
  { positional := fun point => decide (-5 < point ∧ point ≤ 16)
    wholeMark := ".0"
    exponentPlus := ""
    nan := ".nan"
    infinity := ".inf" }

/-- The number as text. -/
def write : Number → String
  | whole n => toString n
  | float x => layout.write x

/-- The number as a double. -/
def toFloat : Number → Float
  | whole n =>
    let magnitude := Decimal.Binary.ofRatio n.natAbs 1
    if n < 0 then -magnitude else magnitude
  | float x => x

/-- Whether two numbers are the same key: a whole number is never a double, and what is not a number
equals itself. -/
def same : Number → Number → Bool
  | whole a, whole b => a == b
  | float a, float b => a == b || (a.isNaN && b.isNaN)
  | _, _ => false

/-! ## Reading -/

/-- The value of a digit. -/
def digit? (c : Char) : Option Nat :=
  if c.isDigit then some (c.toNat - '0'.toNat)
  else if 'a' ≤ c ∧ c ≤ 'z' then some (c.toNat - 'a'.toNat + 10)
  else if 'A' ≤ c ∧ c ≤ 'Z' then some (c.toNat - 'A'.toNat + 10)
  else none

/-- The number that digits write in a base; there is at least one digit. -/
def natural? (base : Nat) (digits : List Char) : Option Nat :=
  if digits.isEmpty then none
  else digits.foldlM
    (fun n c => (digit? c).bind fun d => if d < base then some (base * n + d) else none) 0

/-- The bases that are marked, by their marks. -/
def bases : List (List Char × Nat) := [(['0', 'x'], 16), (['0', 'o'], 8), (['0', 'b'], 2)]

/-- The text behind a mark. -/
def behind? (mark text : List Char) : Option (List Char) :=
  if mark.isPrefixOf text then some (text.drop mark.length) else none

/-- Whether a text, apart from its sign, is a run of digits with a needless zero in front. -/
def hasNeedlessZero (text : List Char) : Bool :=
  match (Decimal.splitSign text).2 with
  | '0' :: rest => !rest.isEmpty && rest.all Char.isDigit
  | _ => false

/-- Reads a magnitude of at most `limit`, in a marked base or in base ten. -/
def magnitude? (limit : Nat) (text : List Char) : Option Nat :=
  let marked := bases.findSome? fun (mark, base) =>
    ((behind? mark text).bind (natural? base)).filter (· ≤ limit)
  marked.or (if hasNeedlessZero text then none else (natural? 10 text).filter (· ≤ limit))

/-- Reads a whole number: up to `above` without a minus sign, up to `below` with one. -/
def whole? (above below : Nat) : List Char → Option Int
  | '-' :: rest => (magnitude? below rest).map fun n => -(n : Int)
  | '+' :: rest => (magnitude? above rest).map fun n => (n : Int)
  | text => (magnitude? above text).map fun n => (n : Int)

/-- Reads a whole number that fits into 64 bits, with a sign only when it is negative. -/
def word? (text : List Char) : Option Int := whole? (Nat.pow 2 64 - 1) (Nat.pow 2 63) text

/-- Whether the text is a whole number of more than 64 and at most 128 bits. -/
def isOverlong (text : List Char) : Bool :=
  (word? text).isNone && (whole? (Nat.pow 2 128 - 1) (Nat.pow 2 127) text).isSome

/-- Whether a text is one of the words for infinity. -/
def isInfinityWord (text : List Char) : Bool :=
  [".inf".toList, ".Inf".toList, ".INF".toList].contains text

/-- Reads a double.  The words for infinity and for what is not a number begin with a point; a
decimal too large to be finite is no number. -/
def float? (text : List Char) : Option Float :=
  let decimal? (text : List Char) : Option Float :=
    ((Decimal.Scientific.read? text).map Decimal.Scientific.toFloat).filter Float.isFinite
  if [".nan".toList, ".NaN".toList, ".NAN".toList].contains text then some (0.0 / 0.0)
  else match text with
    | '-' :: rest => if isInfinityWord rest then some (-1.0 / 0.0) else (decimal? rest).map (- ·)
    | '+' :: rest => if isInfinityWord rest then some (1.0 / 0.0) else decimal? rest
    | _ => if isInfinityWord text then some (1.0 / 0.0) else decimal? text

end Number

end Stave.Yaml
