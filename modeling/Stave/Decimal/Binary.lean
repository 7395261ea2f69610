/-!
# Binary fractions

A finite double is a whole number times a power of two.  `Binary.ofFloat?` takes a double apart that
way and `Binary.ofRatio` finds the double nearest to a quotient of two natural numbers, both in exact
arithmetic.
-/

namespace Stave.Decimal

/-- The number `mantissa * 2 ^ exponent`. -/
structure Binary where
  mantissa : Nat
  exponent : Int
deriving DecidableEq, Repr

namespace Binary

/-- The exponent of the smallest positive double. -/
def leastExponent : Int := -1074

/-- The bit pattern of positive infinity. -/
def infinityBits : Nat := 0x7FF0000000000000

/-- The magnitude of a finite double; nothing for infinities and for what is not a number. -/
def ofFloat? (x : Float) : Option Binary :=
  let bits := x.toBits.toNat
  let field : Nat := bits / Nat.pow 2 52 % 2048
  let fraction := bits % Nat.pow 2 52
  if field = 2047 then none
  else if field = 0 then some ⟨fraction, leastExponent⟩
  else some ⟨Nat.pow 2 52 + fraction, leastExponent + (field - 1 : Nat)⟩

/-- The sign bit of a double. -/
def isNegative (x : Float) : Bool := x.toBits.toNat / Nat.pow 2 63 = 1

/-- `num / den` rounded to the nearest whole number, a half going to the even neighbour. -/
def roundHalfEven (num den : Nat) : Nat :=
  let low := num / den
  let twice := 2 * (num % den)
  if twice < den then low
  else if den < twice then low + 1
  else low + low % 2

/-- `num / den` in units of `2 ^ exponent`, as a quotient of natural numbers. -/
def scale (num den : Nat) (exponent : Int) : Nat × Nat :=
  if exponent < 0 then (num * Nat.pow 2 exponent.natAbs, den) else (num, den * Nat.pow 2 exponent.natAbs)

/-- The double nearest to `num / den`, ties to even; too large a quotient is infinite.  The bits of
a positive double are its mantissa plus `2 ^ 52` for every step of its exponent above the least, so
a mantissa that rounds up to the next power of two needs no case of its own. -/
def ofRatio (num den : Nat) : Float :=
  if num = 0 then 0
  else
    let guess : Int := (num.log2 : Int) - den.log2 - 53
    let (n, d) := scale num den guess
    let fitted := if n / d < Nat.pow 2 53 then guess else guess + 1
    let exponent := max fitted leastExponent
    let (n, d) := scale num den exponent
    let bits := (exponent - leastExponent).toNat * Nat.pow 2 52 + roundHalfEven n d
    Float.ofBits (UInt64.ofNat (min bits infinityBits))

end Binary

end Stave.Decimal
