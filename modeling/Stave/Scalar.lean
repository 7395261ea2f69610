/-!
# Numbers that time and amplitude are measured in

Clocks, envelopes and resampling are written once over `Scalar`.  Played, they run on doubles, which
round every operation; read over an exact field the same definitions say what the rounding
approximates.
-/

namespace Stave

/-- The arithmetic of a measured quantity, with its way in from whole numbers and back. -/
class Scalar (α : Type) extends Add α, Sub α, Mul α, Div α, Neg α, LT α, LE α where
  /-- The number that counts `n` things. -/
  ofNat : Nat → α
  /-- The greatest whole number not above. -/
  floor : α → α
  /-- The least whole number not below. -/
  ceil : α → α
  /-- The nearest whole number, a half going away from zero. -/
  round : α → α
  /-- The whole number of things that fit: nothing for a negative number, and never more than a
  64-bit word can count. -/
  toNat : α → Nat
  decidableLT : DecidableLT α
  decidableLE : DecidableLE α

namespace Scalar

instance {α : Type} [Scalar α] : DecidableLT α := decidableLT

instance {α : Type} [Scalar α] : DecidableLE α := decidableLE

/-! ## Whole numbers in a floating-point format

From `limit` on, all numbers of a format are whole; below it `cut` leaves out the part behind the
point.  Zeros, infinities and what is not a number stay as they are. -/

section Rounding

variable {α : Type} [Add α] [Sub α] [Neg α] [LT α] [DecidableLT α]

/-- The greatest whole number not above `x`. -/
def floorOf (zero one limit : α) (cut : α → α) (x : α) : α :=
  if zero < x then if x < limit then cut x else x
  else if x < zero then
    if -limit < x then if cut (-x) < -x then -(cut (-x) + one) else -cut (-x)
    else x
  else x

/-- The whole number nearest to `x`, a half going away from zero. -/
def roundOf (zero one half limit : α) (cut : α → α) (x : α) : α :=
  let nearest (y : α) : α := if y - cut y < half then cut y else cut y + one
  if zero < x then if x < limit then nearest x else x
  else if x < zero then if -limit < x then -nearest (-x) else x
  else x

end Rounding

/-- Doubles, with IEEE arithmetic.  What is not a number counts as nothing. -/
instance : Scalar Float where
  ofNat n := (UInt64.ofNat n).toFloat
  floor := floorOf 0 1 (UInt64.ofNat (Nat.pow 2 52)).toFloat fun x => x.toUInt64.toFloat
  ceil x := -floorOf 0 1 (UInt64.ofNat (Nat.pow 2 52)).toFloat (fun x => x.toUInt64.toFloat) (-x)
  round := roundOf 0 1 0.5 (UInt64.ofNat (Nat.pow 2 52)).toFloat fun x => x.toUInt64.toFloat
  toNat x := x.toUInt64.toNat
  decidableLT := inferInstance
  decidableLE := inferInstance

/-- Floats of half the width, with the same rules. -/
instance : Scalar Float32 where
  ofNat n := (UInt64.ofNat n).toFloat32
  floor := floorOf 0 1 (UInt64.ofNat (Nat.pow 2 23)).toFloat32 fun x => x.toUInt64.toFloat32
  ceil x :=
    -floorOf 0 1 (UInt64.ofNat (Nat.pow 2 23)).toFloat32 (fun x => x.toUInt64.toFloat32) (-x)
  round := roundOf 0 1 0.5 (UInt64.ofNat (Nat.pow 2 23)).toFloat32 fun x => x.toUInt64.toFloat32
  toNat x := x.toUInt64.toNat
  decidableLT := inferInstance
  decidableLE := inferInstance

variable {α : Type} [Scalar α]

/-- `x`, or nothing where `x` is not above zero. -/
def orZero (x : α) : α := if ofNat 0 < x then x else ofNat 0

/-- `x` kept between two bounds; what is not comparable with them stays as it is. -/
def clamp (x low high : α) : α :=
  if x < low then low else if high < x then high else x

/-- The distance from zero. -/
def magnitude (x : α) : α := if x < ofNat 0 then -x else x

/-- The number for a whole number with a sign. -/
def ofInt (n : Int) : α := if n < 0 then -ofNat n.natAbs else ofNat n.natAbs

/-- The whole number that is left without the part behind the point. -/
def toInt (x : α) : Int := if x < ofNat 0 then -(toNat (-x) : Int) else toNat x

/-- The greater of two; what is not comparable with `x` does not count. -/
def larger (x y : α) : α := if x < y then y else x

end Scalar

end Stave
