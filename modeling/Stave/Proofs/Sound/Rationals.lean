import Mathlib.Data.Rat.Floor
import Stave.Scalar

/-!
# Rational numbers as measured quantities

Over the rational numbers the arithmetic of measured quantities rounds nothing.  What is written over
`Scalar` says there what it would do if doubles were exact; only a count that comes out of it still
stops at the end of a word.  On numbers whose counts have no end it says what it would do if words were
as long as needed.

A quotient by zero is zero there.  To say that there is none in a computation it is carried out on numbers
that lose their value in one.
-/

namespace Stave

/-- Rational numbers, with exact arithmetic. -/
instance : Scalar ℚ where
  ofNat n := n
  floor x := ⌊x⌋
  ceil x := ⌈x⌉
  round x := if x < 0 then -⌊-x + 1 / 2⌋ else ⌊x + 1 / 2⌋
  toNat x := min ⌊x⌋₊ (2 ^ 64 - 1)
  decidableLT := inferInstance
  decidableLE := inferInstance

namespace Scalar

@[simp] theorem ofNat_rat (n : Nat) : (ofNat n : ℚ) = n := rfl

@[simp] theorem magnitude_rat (x : ℚ) : magnitude x = |x| := by
  rw [magnitude, ofNat_rat, Nat.cast_zero]
  split
  · next h => exact (abs_of_neg h).symm
  · next h => exact (abs_of_nonneg (not_lt.mp h)).symm

@[simp] theorem larger_rat (x y : ℚ) : larger x y = max x y := by
  rw [larger]
  split
  · next h => exact (max_eq_right (le_of_lt h)).symm
  · next h => exact (max_eq_left (not_lt.mp h)).symm

@[simp] theorem orZero_rat (x : ℚ) : orZero x = max x 0 := by
  rw [orZero, ofNat_rat, Nat.cast_zero]
  split
  · next h => exact (max_eq_left (le_of_lt h)).symm
  · next h => exact (max_eq_right (not_lt.mp h)).symm

@[simp] theorem clamp_rat {low high : ℚ} (h : low ≤ high) (x : ℚ) :
    clamp x low high = max low (min x high) := by
  rw [clamp]
  split
  · next hlow => rw [min_eq_left (le_of_lt (lt_of_lt_of_le hlow h)), max_eq_left (le_of_lt hlow)]
  · next hlow =>
    split
    · next hhigh => rw [min_eq_right (le_of_lt hhigh), max_eq_right h]
    · next hhigh => rw [min_eq_left (not_lt.mp hhigh), max_eq_right (not_lt.mp hlow)]

theorem floor_intCast (z : ℤ) : ⌊(z : ℚ)⌋₊ = z.toNat := by
  rw [← Int.floor_toNat, Int.floor_intCast]

/-- The count of whole things. -/
theorem toNat_floor (x : ℚ) : toNat (floor x) = min ⌊x⌋₊ (2 ^ 64 - 1) := by
  show min ⌊((⌊x⌋ : ℤ) : ℚ)⌋₊ (2 ^ 64 - 1) = _
  rw [floor_intCast, Int.floor_toNat]

/-- The count of the least whole number not below. -/
theorem toNat_ceil (x : ℚ) : toNat (ceil x) = min ⌈x⌉₊ (2 ^ 64 - 1) := by
  show min ⌊((⌈x⌉ : ℤ) : ℚ)⌋₊ (2 ^ 64 - 1) = _
  rw [floor_intCast, Int.ceil_toNat]

/-- The count of the nearest whole number, for a number that is not below zero. -/
theorem toNat_round {x : ℚ} (hx : 0 ≤ x) : toNat (round x) = min ⌊x + 1 / 2⌋₊ (2 ^ 64 - 1) := by
  show min ⌊if x < 0 then -((⌊-x + 1 / 2⌋ : ℤ) : ℚ) else ((⌊x + 1 / 2⌋ : ℤ) : ℚ)⌋₊ (2 ^ 64 - 1) = _
  rw [if_neg hx.not_gt, floor_intCast, Int.floor_toNat]

end Scalar

/-! ## Counts without an end -/

/-- A rational number of which whole things are counted however many there are. -/
structure Unbounded where
  value : ℚ

namespace Unbounded

instance : Scalar Unbounded where
  add x y := ⟨x.value + y.value⟩
  sub x y := ⟨x.value - y.value⟩
  mul x y := ⟨x.value * y.value⟩
  div x y := ⟨x.value / y.value⟩
  neg x := ⟨-x.value⟩
  lt x y := x.value < y.value
  le x y := x.value ≤ y.value
  ofNat n := ⟨n⟩
  floor x := ⟨Scalar.floor x.value⟩
  ceil x := ⟨Scalar.ceil x.value⟩
  round x := ⟨Scalar.round x.value⟩
  toNat x := ⌊x.value⌋₊
  decidableLT x y := inferInstanceAs (Decidable (x.value < y.value))
  decidableLE x y := inferInstanceAs (Decidable (x.value ≤ y.value))

@[simp] theorem toNat_eq (x : ℚ) : Scalar.toNat (mk x) = ⌊x⌋₊ := rfl

theorem toNat_ceil (x : ℚ) : Scalar.toNat (Scalar.ceil (mk x)) = ⌈x⌉₊ :=
  (Scalar.floor_intCast ⌈x⌉).trans (Int.ceil_toNat x)

end Unbounded

/-! ## Quotients by zero -/

/-- A rational number, or nothing: a quotient by zero has no value, and neither has what is computed from
something that has none. -/
structure Checked where
  value? : Option ℚ

namespace Checked

/-- A number that has a value. -/
def ofRat (x : ℚ) : Checked := ⟨some x⟩

/-- Carries an operation out on two numbers. -/
def both (op : ℚ → ℚ → Option ℚ) (x y : Checked) : Checked :=
  ⟨x.value?.bind fun a => y.value?.bind fun b => op a b⟩

/-- Compares two numbers; one without a value is on neither side of any other. -/
def compare (holds : ℚ → ℚ → Bool) (x y : Checked) : Bool :=
  x.value?.any fun a => y.value?.any fun b => holds a b

instance : Scalar Checked where
  add := both fun a b => some (a + b)
  sub := both fun a b => some (a - b)
  mul := both fun a b => some (a * b)
  div := both fun a b => if b = 0 then none else some (a / b)
  neg x := ⟨x.value?.map Neg.neg⟩
  lt x y := compare (fun a b => decide (a < b)) x y = true
  le x y := compare (fun a b => decide (a ≤ b)) x y = true
  ofNat n := ofRat n
  floor x := ⟨x.value?.map Scalar.floor⟩
  ceil x := ⟨x.value?.map Scalar.ceil⟩
  round x := ⟨x.value?.map Scalar.round⟩
  toNat x := x.value?.elim 0 Scalar.toNat
  decidableLT _ _ := inferInstanceAs (Decidable (_ = true))
  decidableLE _ _ := inferInstanceAs (Decidable (_ = true))

@[simp] theorem ofNat_eq (n : Nat) : (Scalar.ofNat n : Checked) = ofRat n := rfl

@[simp] theorem ofRat_add (x y : ℚ) : ofRat x + ofRat y = ofRat (x + y) := rfl

@[simp] theorem ofRat_sub (x y : ℚ) : ofRat x - ofRat y = ofRat (x - y) := rfl

@[simp] theorem ofRat_mul (x y : ℚ) : ofRat x * ofRat y = ofRat (x * y) := rfl

theorem ofRat_div (x : ℚ) {y : ℚ} (h : y ≠ 0) : ofRat x / ofRat y = ofRat (x / y) :=
  congrArg mk (if_neg h)

@[simp] theorem ofRat_lt_iff (x y : ℚ) : ofRat x < ofRat y ↔ x < y := decide_eq_true_iff

@[simp] theorem ofRat_le_iff (x y : ℚ) : ofRat x ≤ ofRat y ↔ x ≤ y := decide_eq_true_iff

end Checked

end Stave
