import Stave.Decimal.Binary

/-!
# The shortest decimal of a double

A double stands for every real number that rounds to it.  Its shortest decimal is the one with the
fewest digits among those, and of several with that many digits the nearest to the double itself.
The search runs over the number of digits: on each decimal grid only the two neighbours of the value
can qualify.
-/

namespace Stave.Decimal

/-- A decimal number: `0.d₁d₂… * 10 ^ point` for the digits `d₁ d₂ …`. -/
structure Digits where
  digits : List Char
  point : Int
deriving DecidableEq, Repr

/-- The numbers that round to one double, as fractions over one denominator. -/
structure Interval where
  low : Nat
  value : Nat
  high : Nat
  denominator : Nat
  /-- Whether the two ends round to the double as well. -/
  closed : Bool

namespace Interval

/-- The interval of `b`: half a step to either side, but a quarter step below a power of two, where
the steps get finer.  The ends round to the double when its mantissa is even. -/
def ofBinary (b : Binary) : Interval :=
  let narrow := b.mantissa = Nat.pow 2 52 ∧ Binary.leastExponent < b.exponent
  let up := Nat.pow 2 (b.exponent - 2).toNat
  { low := (4 * b.mantissa - if narrow then 1 else 2) * up
    value := 4 * b.mantissa * up
    high := (4 * b.mantissa + 2) * up
    denominator := Nat.pow 2 (2 - b.exponent).toNat
    closed := b.mantissa % 2 = 0 }

/-- How many digits a number has before its decimal point, zero or negative below one: the `k` with
`10 ^ (k - 1) ≤ value < 10 ^ k`. -/
def point (i : Interval) : Int :=
  if i.denominator ≤ i.value then (Nat.toDigits 10 (i.value / i.denominator)).length
  else 1 - (Nat.toDigits 10 ((i.denominator - 1) / i.value)).length

/-- Whether `n * 10 ^ exponent` lies in the interval. -/
def contains (i : Interval) (n : Nat) (exponent : Int) : Bool :=
  let here := n * Nat.pow 10 exponent.toNat * i.denominator
  let unit := Nat.pow 10 (-exponent).toNat
  if i.closed then i.low * unit ≤ here && here ≤ i.high * unit
  else i.low * unit < here && here < i.high * unit

/-- The best decimal on the grid of step `10 ^ exponent`: the nearer of the value's two neighbours,
on a tie the even one, if that one lies in the interval, else the other. -/
def onGrid? (i : Interval) (exponent : Int) : Option Nat :=
  let num := i.value * Nat.pow 10 (-exponent).toNat
  let den := i.denominator * Nat.pow 10 exponent.toNat
  let near := Binary.roundHalfEven num den
  let far := if near = num / den then near + 1 else num / den
  if i.contains near exponent then some near
  else if i.contains far exponent then some far
  else none

end Interval

/-- The shortest decimal of a positive double.  Seventeen digits always suffice. -/
def shortest (b : Binary) : Digits :=
  let i := Interval.ofBinary b
  let point := i.point
  let found := (List.range 17).findSome? fun n =>
    (i.onGrid? (point - (n + 1 : Nat))).map fun hit => (hit, n + 1)
  match found with
  | none => ⟨[], 0⟩
  | some (hit, places) =>
    let digits := Nat.toDigits 10 hit
    let trimmed := (digits.reverse.dropWhile (· = '0')).reverse
    ⟨trimmed, point + ((digits.length : Int) - (places : Int))⟩

end Stave.Decimal
