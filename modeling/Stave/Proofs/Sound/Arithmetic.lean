import Mathlib.Algebra.Order.Floor.Semifield
import Mathlib.Data.Nat.Cast.Order.Field
import Mathlib.Data.Rat.Floor
import Mathlib.Tactic.FieldSimp
import Stave.Proofs.Sound.Values

/-!
# Arithmetic of doubles

Sums, products and quotients of doubles are the exact ones rounded, and so is a whole number that is
made a double.  Doubles are compared like the numbers that they stand for, and cut down to whole
numbers like them.
-/

namespace Stave

open Float.Model Float.Model.UnpackedFloat

/-! ## Unpacked doubles -/

/-- An exact number of more than 52 bits, or of the least exponent, is rounded. -/
theorem approximates_exact {mantissa : Nat} {exponent : Int}
    (hbits : 2 ^ 52 ≤ mantissa ∨ exponent ≤ -1074) :
    Approximates (roundWithAccuracy Format.binary64 .positive mantissa exponent .exact)
      (mantissa * 2 ^ exponent) := by
  have hpos : (0 : ℚ) < 2 ^ exponent := by positivity
  exact approximates_roundWithAccuracy .exact le_rfl (by linarith) hbits

theorem shiftLeft_mul_zpow (mantissa count : Nat) (exponent : Int) :
    ((mantissa <<< count : Nat) : ℚ) * 2 ^ (exponent - count) = mantissa * 2 ^ exponent := by
  rw [Nat.shiftLeft_eq, zpow_sub₀ (by norm_num), zpow_natCast]
  push_cast
  field_simp

/-- A mantissa for a smaller exponent. -/
theorem decreaseExponent_fst {mantissa : Nat} {exponent target : Int} (h : target ≤ exponent) :
    ((decreaseExponent mantissa exponent target).1 : ℚ) * 2 ^ target = mantissa * 2 ^ exponent := by
  rw [← shiftLeft_mul_zpow mantissa (exponent - target).toNat exponent, Int.toNat_of_nonneg (by omega),
    sub_sub_cancel]
  rfl

/-- A mantissa that is shifted has the bits that it had and those that it is shifted by. -/
theorem two_pow_le_shiftLeft {mantissa : Nat} (count : Nat) (h : 0 < mantissa) :
    2 ^ (mantissa.log2 + count) ≤ mantissa <<< count := by
  rw [Nat.shiftLeft_eq, pow_add]
  exact Nat.mul_le_mul_right _ (Nat.log2_self_le h.ne')

/-- A quotient has as many bits as the dividend is longer than the divisor, or one less. -/
theorem two_pow_le_div {m n count : Nat} (hm : 0 < m) (hn : 0 < n)
    (h : 53 + n.log2 ≤ m.log2 + count) : 2 ^ 52 ≤ m <<< count / n := by
  rw [Nat.le_div_iff_mul_le hn]
  calc 2 ^ 52 * n ≤ 2 ^ 52 * 2 ^ (n.log2 + 1) := Nat.mul_le_mul_left _ Nat.lt_log2_self.le
    _ = 2 ^ (53 + n.log2) := by rw [← pow_add]; congr 1; omega
    _ ≤ 2 ^ (m.log2 + count) := Nat.pow_le_pow_right (by decide) h
    _ ≤ m <<< count := two_pow_le_shiftLeft count hm

theorem approximates_round {mantissa : Nat} (exponent : Int) (h : 0 < mantissa) :
    Approximates (UnpackedFloat.round Format.binary64 .positive mantissa exponent)
      (mantissa * 2 ^ exponent) := by
  rw [UnpackedFloat.round, targetExponent_eq, decreaseExponent]
  dsimp only
  rw [← shiftLeft_mul_zpow mantissa
    (exponent - max (mantissa.log2 + exponent - 52) (-1074)).toNat exponent]
  refine approximates_exact ?_
  generalize hcount : (exponent - max (mantissa.log2 + exponent - 52) (-1074)).toNat = count
  by_cases hleast : exponent - count ≤ -1074
  · exact .inr hleast
  · exact .inl ((Nat.pow_le_pow_right (by decide) (by omega)).trans (two_pow_le_shiftLeft count h))

theorem approximates_normalize (mantissa : Nat) (exponent : Int) :
    Approximates (UnpackedFloat.normalize Format.binary64 mantissa exponent .positive)
      (mantissa * 2 ^ exponent) := by
  rcases Nat.eq_zero_or_pos mantissa with rfl | hpos
  · rw [Nat.cast_zero, Nat.cast_zero, zero_mul]
    exact (StandsFor.zero .positive).approximates
  · have hsign : compare (mantissa : Int) 0 = .gt := compare_gt_iff_gt.mpr (by omega)
    rw [UnpackedFloat.normalize, hsign]
    exact approximates_round exponent hpos

/-- Of two numbers with canonical mantissas, the one with the smaller exponent is the smaller one. -/
theorem IsCanonical.lt_of_lt {m n : Nat} {e f : Int} (hm : IsCanonical m e) (hn : IsCanonical n f)
    (h : e < f) : (m : ℚ) * 2 ^ e < n * 2 ^ f := by
  have hexponent := hm.le_exponent
  have hlt : (m : ℚ) < (2 ^ 53 : Nat) := by exact_mod_cast hm.lt
  have hle : ((2 ^ 52 : Nat) : ℚ) ≤ n := by exact_mod_cast hn.full.resolve_right (by omega)
  calc (m : ℚ) * 2 ^ e < (2 ^ 53 : Nat) * 2 ^ e := by gcongr
    _ = (2 ^ 52 : Nat) * 2 ^ (e + 1) := by
        rw [zpow_add₀ (by norm_num)]
        push_cast
        ring
    _ ≤ n * 2 ^ f := by
        gcongr
        · norm_num
        · omega

namespace StandsFor

variable {a b : UnpackedFloat} {u v : ℚ}

theorem mul (ha : StandsFor a u) (hb : StandsFor b v) :
    Approximates (UnpackedFloat.mul Format.binary64 a b) (u * v) := by
  cases ha with
  | zero =>
    rw [zero_mul]
    cases hb with
    | zero => exact (StandsFor.zero _).approximates
    | finite => exact (StandsFor.zero _).approximates
  | @finite m e hm hmpos =>
    cases hb with
    | zero =>
      rw [mul_zero]
      exact (StandsFor.zero _).approximates
    | @finite n f hn hnpos =>
      have hvalue : (m * 2 ^ e * (n * 2 ^ f) : ℚ) = (m * n : Nat) * 2 ^ (e + f) := by
        rw [zpow_add₀ (by norm_num)]
        push_cast
        ring
      rw [hvalue]
      refine approximates_exact ?_
      -- one factor with all bits makes the product one with enough bits
      rcases hm.full with hfull | he
      · exact .inl (hfull.trans (Nat.le_mul_of_pos_right m hnpos))
      rcases hn.full with hfull | hf
      · exact .inl (hfull.trans (Nat.le_mul_of_pos_left n hmpos))
      · exact .inr (by omega)

theorem div (ha : StandsFor a u) (hb : StandsFor b v) (hv : 0 < v) :
    Approximates (UnpackedFloat.div Format.binary64 a b) (u / v) := by
  cases hb with
  | zero => exact absurd hv (lt_irrefl 0)
  | @finite n f hn hnpos =>
    cases ha with
    | zero =>
      rw [zero_div]
      exact (StandsFor.zero _).approximates
    | @finite m e hm hmpos =>
      -- the mantissa is shifted far enough for the quotient to have enough bits
      obtain ⟨target, htarget⟩ : ∃ target, target = min (e - f)
          (Format.binary64.targetExponent (totalExponent m e - totalExponent n f)) := ⟨_, rfl⟩
      obtain ⟨count, hcount⟩ : ∃ count, count = (e - f - target).toNat := ⟨_, rfl⟩
      have hdiv : UnpackedFloat.div Format.binary64 (.finite .positive m e hmpos)
            (.finite .positive n f hnpos)
          = roundWithAccuracy Format.binary64 .positive (m <<< count / n) target
              (accuracyOfFraction (m <<< count % n) n) := by
        rw [hcount, htarget]
        rfl
      have hexponent : target = e - f - count := by omega
      have hvalue : (m * 2 ^ e / (n * 2 ^ f) : ℚ) = (m <<< count : Nat) / n * 2 ^ target := by
        rw [hexponent, div_mul_eq_mul_div, shiftLeft_mul_zpow, zpow_sub₀ (by norm_num)]
        field_simp
      have hpos : (0 : ℚ) < 2 ^ target := by positivity
      have hnpos' : (0 : ℚ) < n := by exact_mod_cast hnpos
      rw [hdiv, hvalue]
      refine approximates_roundWithAccuracy _
        (mul_le_mul_of_nonneg_right Nat.cast_div_le hpos.le)
        (mul_lt_mul_of_pos_right ?_ hpos) ?_
      · rw [div_lt_iff₀ hnpos']
        exact_mod_cast Nat.lt_mul_of_div_lt (Nat.lt_succ_self _) hnpos
      by_cases hleast : target ≤ -1074
      · exact .inr hleast
      refine .inl (two_pow_le_div hmpos hnpos ?_)
      simp only [Format.targetExponent, totalExponent, Format.mantissaBits, Format.minExponent]
        at htarget
      push_cast at htarget
      omega

theorem add (ha : StandsFor a u) (hb : StandsFor b v) :
    Approximates (UnpackedFloat.add Format.binary64 a b) (u + v) := by
  cases ha with
  | zero s =>
    rw [zero_add]
    cases hb with
    | zero t => cases s <;> cases t <;> exact (StandsFor.zero _).approximates
    | finite canonical h => exact (StandsFor.finite canonical h).approximates
  | @finite m e hm hmpos =>
    cases hb with
    | zero =>
      rw [add_zero]
      exact (StandsFor.finite hm hmpos).approximates
    | @finite n f hn hnpos =>
      rw [← decreaseExponent_fst (min_le_left e f), ← decreaseExponent_fst (min_le_right e f),
        ← add_mul, ← Nat.cast_add]
      exact approximates_normalize _ _

theorem sub (ha : StandsFor a u) (hb : StandsFor b v) (hle : v ≤ u) :
    Approximates (UnpackedFloat.sub Format.binary64 a b) (u - v) := by
  cases hb with
  | zero t =>
    rw [sub_zero]
    cases ha with
    | zero s => cases s <;> cases t <;> exact (StandsFor.zero _).approximates
    | finite canonical h => exact (StandsFor.finite canonical h).approximates
  | @finite n f hn hnpos =>
    have hnpos' : (0 : ℚ) < n * 2 ^ f := by positivity
    cases ha with
    | zero => exact absurd hle hnpos'.not_ge
    | @finite m e hm hmpos =>
      rw [← decreaseExponent_fst (min_le_left e f), ← decreaseExponent_fst (min_le_right e f)] at hle ⊢
      have hpos : (0 : ℚ) < 2 ^ min e f := by positivity
      have hcast := Nat.cast_le.mp (le_of_mul_le_mul_right hle hpos)
      rw [← sub_mul, ← Nat.cast_sub hcast]
      have hsub := approximates_normalize ((decreaseExponent m e (min e f)).1
        - (decreaseExponent n f (min e f)).1) (min e f)
      rw [Int.ofNat_sub hcast] at hsub
      exact hsub

theorem lt_iff (ha : StandsFor a u) (hb : StandsFor b v) : a.lt b = true ↔ u < v := by
  cases ha with
  | zero =>
    cases hb with
    | zero => exact iff_of_false (fun h => nomatch h) (lt_irrefl 0)
    | @finite n f hn hnpos =>
      have hpos : (0 : ℚ) < n * 2 ^ f := by positivity
      exact iff_of_true rfl hpos
  | @finite m e hm hmpos =>
    have hpos : (0 : ℚ) < m * 2 ^ e := by positivity
    cases hb with
    | zero => exact iff_of_false (fun h => nomatch h) hpos.not_gt
    | @finite n f hn hnpos =>
      show (some ((compare e f).then (compare m n)) == some .lt) = true ↔ _
      rcases lt_trichotomy e f with hlt | rfl | hgt
      · rw [compare_lt_iff_lt.mpr hlt]
        exact iff_of_true rfl (hm.lt_of_lt hn hlt)
      · rw [compare_eq_iff_eq.mpr rfl, mul_lt_mul_iff_left₀ (by positivity), Nat.cast_lt,
          ← compare_lt_iff_lt (a := m)]
        cases compare m n <;> decide
      · rw [compare_gt_iff_gt.mpr hgt]
        exact iff_of_false (fun h => nomatch h) (hn.lt_of_lt hm hgt).not_gt

/-- What is left without the part behind the point. -/
theorem toInt (ha : StandsFor a u) (low high : Int) : a.toInt low high = ⌊u⌋₊ := by
  cases ha with
  | zero => rw [Nat.floor_zero]; rfl
  | @finite m e hm hmpos =>
    show ((ExtendedMantissa.mk (m <<< (e - 0).toNat) false false
      >>> (0 - (e - (e - 0).toNat)).toNat).mantissa : Int) = _
    rw [IsNormal.mantissa_shiftRight, sub_zero]
    dsimp only
    rw [Nat.cast_inj]
    rcases le_total 0 e with hle | hle
    · obtain ⟨k, rfl⟩ := Int.eq_ofNat_of_zero_le hle
      rw [Int.toNat_natCast, sub_self, sub_self, Int.toNat_zero, pow_zero, Nat.div_one,
        Nat.shiftLeft_eq, zpow_natCast]
      exact_mod_cast (Nat.floor_natCast (R := ℚ) (m * 2 ^ k)).symm
    · obtain ⟨k, hk⟩ := Int.eq_ofNat_of_zero_le (neg_nonneg.mpr hle)
      obtain rfl : e = -k := by omega
      rw [Int.toNat_of_nonpos hle, Nat.cast_zero, sub_zero, zero_sub, neg_neg, Int.toNat_natCast,
        Nat.shiftLeft_zero, zpow_neg, zpow_natCast, ← div_eq_mul_inv]
      exact_mod_cast (Nat.floor_div_eq_div (K := ℚ) m (2 ^ k)).symm

theorem infinity_mul (hb : StandsFor b v) (hv : 0 < v) :
    UnpackedFloat.mul Format.binary64 (.infinity .positive) b = .infinity .positive := by
  cases hb with
  | zero => exact absurd hv (lt_irrefl 0)
  | finite => rfl

theorem infinity_div (hb : StandsFor b v) (hv : 0 < v) :
    UnpackedFloat.div Format.binary64 (.infinity .positive) b = .infinity .positive := by
  cases hb with
  | zero => exact absurd hv (lt_irrefl 0)
  | finite => rfl

theorem add_infinity (ha : StandsFor a u) :
    UnpackedFloat.add Format.binary64 a (.infinity .positive) = .infinity .positive := by
  cases ha <;> rfl

theorem div_infinity (ha : StandsFor a u) :
    ∃ sign, UnpackedFloat.div Format.binary64 a (.infinity .positive) = .zero sign := by
  cases ha <;> exact ⟨_, rfl⟩

theorem not_infinity_lt (hb : StandsFor b v) : ¬ (UnpackedFloat.infinity .positive).lt b = true := by
  cases hb <;> exact fun h => nomatch h

end StandsFor

/-! ## Doubles -/

/-- The double that holds an exact result: it is rounded, and one that is too large has become
infinite. -/
def HasResult (x : Float) (v : ℚ) : Prop :=
  (∃ w, IsRounded v w ∧ HasValue x w) ∨ IsInfinite x ∧ 2 ^ 200 ≤ v

theorem leastStep_le : leastStep ≤ 1 / 2 ^ 50 := by
  have hpower : (1 : ℚ) / 2 ^ 50 = 2 ^ (-50 : Int) := by norm_num
  rw [hpower]
  exact zpow_le_zpow_right₀ (by norm_num) (by decide)

theorem leastStep_le_one : leastStep ≤ 1 := leastStep_le.trans (by norm_num)

theorem Approximates.ofModel_pack {u : UnpackedFloat} {v : ℚ} (h : Approximates u v) (hv : 0 ≤ v) :
    HasResult (.ofModel (.pack u)) v := by
  obtain ⟨w, hw, hu⟩ := h
  refine hu.ofModel_pack.imp (fun hx => ⟨w, hw, hx⟩) (And.imp_right fun hlarge => ?_)
  have hmore : (2 : ℚ) ^ (202 : Int) ≤ 2 ^ (1024 : Int) :=
    zpow_le_zpow_right₀ (by norm_num) (by decide)
  have htwo := hmore.trans (hlarge.trans (hw.le_two_mul hv))
  have hleast := leastStep_le_one
  norm_num at htwo ⊢
  linarith only [htwo, hleast]

namespace HasResult

variable {x : Float} {v : ℚ}

/-- A result that is not very large is a number. -/
theorem exists_hasValue (h : HasResult x v) (hlt : v < 2 ^ 200) :
    ∃ w, IsRounded v w ∧ HasValue x w :=
  h.resolve_right fun hinfinite => hlt.not_ge hinfinite.2

/-- Rounding adds little to a result. -/
theorem exists_near_or (h : HasResult x v) (hv : 0 ≤ v) :
    (∃ w ≤ v + v / 2 ^ 52 + leastStep, HasValue x w) ∨ IsInfinite x ∧ 2 ^ 200 ≤ v :=
  h.imp_left fun ⟨w, hround, hw⟩ => ⟨w, hround.le_add hv, hw⟩

/-- Rounding at most doubles a result, besides the least step. -/
theorem exists_le (h : HasResult x v) (hv : 0 ≤ v) (hlt : v < 2 ^ 200) :
    ∃ w ≤ 2 * v + leastStep, HasValue x w := by
  obtain ⟨w, hround, hw⟩ := h.exists_hasValue hlt
  exact ⟨w, hround.le_two_mul hv, hw⟩

end HasResult

/-- Doubles are compared when they are unpacked. -/
theorem lt_iff_unpack {x y : Float} : x < y ↔ x.toModel.unpack.lt y.toModel.unpack = true :=
  decide_eq_true_iff

theorem le_iff_unpack {x y : Float} : x ≤ y ↔ x.toModel.unpack.le y.toModel.unpack = true :=
  decide_eq_true_iff

/-- What is not a number. -/
def IsNaN (x : Float) : Prop := x.toModel.unpack = .notANumber

namespace HasValue

variable {x y : Float} {u v : ℚ}

theorem nonneg (hx : HasValue x u) : 0 ≤ u := StandsFor.nonneg hx

theorem mul (hx : HasValue x u) (hy : HasValue y v) : HasResult (x * y) (u * v) :=
  (StandsFor.mul hx hy).ofModel_pack (mul_nonneg hx.nonneg hy.nonneg)

theorem div (hx : HasValue x u) (hy : HasValue y v) (hv : 0 < v) : HasResult (x / y) (u / v) :=
  (StandsFor.div hx hy hv).ofModel_pack (div_nonneg hx.nonneg hy.nonneg)

theorem add (hx : HasValue x u) (hy : HasValue y v) : HasResult (x + y) (u + v) :=
  (StandsFor.add hx hy).ofModel_pack (add_nonneg hx.nonneg hy.nonneg)

theorem sub (hx : HasValue x u) (hy : HasValue y v) (hle : v ≤ u) : HasResult (x - y) (u - v) :=
  (StandsFor.sub hx hy hle).ofModel_pack (sub_nonneg.mpr hle)

theorem lt_iff (hx : HasValue x u) (hy : HasValue y v) : x < y ↔ u < v :=
  lt_iff_unpack.trans (StandsFor.lt_iff hx hy)

end HasValue

theorem IsNormal.hasValue {x : Float} {m : Nat} {e : Int} (h : IsNormal x m e) :
    HasValue x (m * 2 ^ e) := by
  obtain ⟨hpos, hunpack⟩ := h.unpack_eq
  show StandsFor x.toModel.unpack _
  rw [hunpack]
  exact .finite ⟨h.mantissa_lt, h.exponent_mem.1, .inl h.le_mantissa⟩ _

/-! ### Whole numbers -/

/-- A whole number is rounded where it is made a double. -/
theorem hasResult_ofNat {n : Nat} (h : n < 2 ^ 64) : HasResult (Scalar.ofNat n : Float) n := by
  have hfloat : (Scalar.ofNat n : Float)
      = .ofModel (.pack (UnpackedFloat.normalize Format.binary64 n 0 .positive)) := by
    show Float.ofModel (.pack (UnpackedFloat.ofNat Format.binary64 (UInt64.ofNat n).toNat)) = _
    rw [UInt64.toNat_ofNat', Nat.mod_eq_of_lt h]
    rfl
  have happrox := approximates_normalize n 0
  rw [zpow_zero, mul_one] at happrox
  rw [hfloat]
  exact happrox.ofModel_pack (Nat.cast_nonneg n)

/-- A whole number of at most 53 bits stays what it is. -/
theorem hasValue_ofNat {n : Nat} (h : n < 2 ^ 53) : HasValue (Scalar.ofNat n : Float) n := by
  rcases Nat.eq_zero_or_pos n with rfl | hpos
  · rw [Nat.cast_zero]
    have hzero : (Scalar.ofNat 0 : Float).toModel.unpack = .zero .positive := rfl
    show StandsFor (Scalar.ofNat 0 : Float).toModel.unpack _
    rw [hzero]
    exact .zero _
  · have hlog : n.log2 ≤ 52 := Nat.le_of_lt_succ ((Nat.log2_lt hpos.ne').mpr h)
    have hexponent : (n.log2 : Int) - 52 = 0 - (52 - n.log2 : Nat) := by omega
    have hvalue := (IsNormal.ofNat hpos h).hasValue
    rwa [hexponent, ← Nat.shiftLeft_eq, shiftLeft_mul_zpow, zpow_zero, mul_one] at hvalue

section Whole

variable {x : Float} {v : ℚ}

theorem HasValue.toNat_of_lt (h : HasValue x v) (hlt : v < 2 ^ 64) : Scalar.toNat x = ⌊v⌋₊ := by
  have hfloor : ⌊v⌋₊ < 2 ^ 64 := by
    rw [Nat.floor_lt h.nonneg]
    exact_mod_cast hlt
  show (UInt64.ofNatClamp (x.toModel.unpack.toInt 0 (UInt64.size - 1)).toNat).toNat = _
  rw [StandsFor.toInt h, Int.toNat_natCast, UInt64.ofNatClamp_eq_ofNat _ hfloor,
    UInt64.toNat_ofNat', Nat.mod_eq_of_lt hfloor]

/-- No more is counted than there is. -/
theorem HasValue.toNat_le (h : HasValue x v) : (Scalar.toNat x : ℚ) ≤ v := by
  by_cases hlt : v < 2 ^ 64
  · rw [h.toNat_of_lt hlt]
    exact Nat.floor_le h.nonneg
  · have hcount : ((Scalar.toNat x : Nat) : ℚ) < (2 ^ 64 : Nat) := by
      exact_mod_cast x.toUInt64.toNat_lt
    push_cast at hcount
    linarith

/-- The double of what a double counts. -/
theorem HasValue.cut (h : HasValue x v) (hlt : v < 2 ^ 52) :
    HasValue x.toUInt64.toFloat (⌊v⌋₊ : ℚ) := by
  have hfloor : ⌊v⌋₊ < 2 ^ 52 := by
    rw [Nat.floor_lt h.nonneg]
    exact_mod_cast hlt
  have hcount := h.toNat_of_lt (hlt.trans (by norm_num))
  have hsame : x.toUInt64 = UInt64.ofNat (Scalar.toNat x) := UInt64.ofNat_toNat.symm
  rw [hsame, hcount]
  exact hasValue_ofNat (hfloor.trans (by decide))

theorem zero_eq_ofNat : (0 : Float) = Scalar.ofNat 0 := by decide +kernel

theorem unpack_zero : (0 : Float).toModel.unpack = .zero .positive := by
  rw [zero_eq_ofNat]
  rfl

theorem hasValue_zero : HasValue 0 0 := by
  rw [zero_eq_ofNat]
  exact_mod_cast hasValue_ofNat (n := 0) (by decide)

theorem hasValue_one : HasValue 1 1 := by
  have hone : (1 : Float) = Scalar.ofNat 1 := by decide +kernel
  rw [hone]
  exact_mod_cast hasValue_ofNat (n := 1) (by decide)

theorem hasValue_limit : HasValue (UInt64.ofNat (Nat.pow 2 52)).toFloat (2 ^ 52) := by
  exact_mod_cast hasValue_ofNat (n := 2 ^ 52) (by decide)

/-- What is neither small nor below zero is whole. -/
theorem floor_eq_self (hlimit : ¬x < (UInt64.ofNat (Nat.pow 2 52)).toFloat) (hzero : ¬x < 0) :
    Scalar.floor x = x := by
  show (if 0 < x then if x < (UInt64.ofNat (Nat.pow 2 52)).toFloat then _ else x
    else if x < 0 then _ else x) = x
  rw [if_neg hlimit, if_neg hzero, ite_self]

/-- The greatest whole number not above is less than one away. -/
theorem HasValue.floor (h : HasValue x v) :
    ∃ w, HasValue (Scalar.floor x) w ∧ w ≤ v ∧ v < w + 1 := by
  have hzero : ¬x < 0 := fun hlt => h.nonneg.not_gt ((h.lt_iff hasValue_zero).mp hlt)
  have hself : ∃ w, HasValue x w ∧ w ≤ v ∧ v < w + 1 := ⟨v, h, le_rfl, lt_add_one v⟩
  by_cases hlt : x < (UInt64.ofNat (Nat.pow 2 52)).toFloat
  · show ∃ w, HasValue (if 0 < x then if x < (UInt64.ofNat (Nat.pow 2 52)).toFloat
      then x.toUInt64.toFloat else x else if x < 0 then _ else x) w ∧ _
    rw [if_pos hlt, if_neg hzero]
    split
    · exact ⟨⌊v⌋₊, h.cut ((h.lt_iff hasValue_limit).mp hlt), Nat.floor_le h.nonneg,
        Nat.lt_floor_add_one v⟩
    · exact hself
  · rwa [floor_eq_self hlt hzero]

/-- Rounding to a whole number at most doubles the number and adds a little. -/
theorem HasValue.toNat_round_le (h : HasValue x v) :
    (Scalar.toNat (Scalar.round x) : ℚ) ≤ 2 * v + 3 := by
  have hnonneg := h.nonneg
  have hself : (Scalar.toNat x : ℚ) ≤ 2 * v + 3 := h.toNat_le.trans (by linarith)
  have hround : Scalar.round x = Scalar.roundOf 0 1 0.5 (UInt64.ofNat (Nat.pow 2 52)).toFloat
    (fun x => x.toUInt64.toFloat) x := rfl
  rw [hround, Scalar.roundOf]
  dsimp only
  rw [if_neg (c := x < 0) fun hlt => hnonneg.not_gt ((h.lt_iff hasValue_zero).mp hlt)]
  split
  · split
    · next hlt =>
      have hcut := h.cut ((h.lt_iff hasValue_limit).mp hlt)
      have hle := Nat.floor_le hnonneg
      split
      · exact hcut.toNat_le.trans (by linarith)
      · -- half and above: one more than what is cut off
        have hsmall : (⌊v⌋₊ : ℚ) + 1 < 2 ^ 200 := by
          have hlimit := (h.lt_iff hasValue_limit).mp hlt
          norm_num at hlimit ⊢
          linarith
        obtain ⟨w, hw, hvalue⟩ := (hcut.add hasValue_one).exists_le (by positivity) hsmall
        have hleast := leastStep_le_one
        have hcount := hvalue.toNat_le
        linarith
    · exact hself
  · exact hself

end Whole

/-! ### Beyond numbers -/

section Beyond

variable {x y : Float} {v : ℚ}

theorem IsInfinite.ofModel_pack {u : UnpackedFloat} (h : u = .infinity .positive) :
    IsInfinite (.ofModel (.pack u)) := by
  subst h
  rfl

theorem IsNaN.ofModel_pack {u : UnpackedFloat} (h : u = .notANumber) :
    IsNaN (.ofModel (.pack u)) := by
  subst h
  rfl

theorem IsInfinite.mul (hx : IsInfinite x) (hy : HasValue y v) (hv : 0 < v) : IsInfinite (x * y) :=
  .ofModel_pack (hx.symm ▸ StandsFor.infinity_mul hy hv)

theorem IsInfinite.div (hx : IsInfinite x) (hy : HasValue y v) (hv : 0 < v) : IsInfinite (x / y) :=
  .ofModel_pack (hx.symm ▸ StandsFor.infinity_div hy hv)

theorem HasValue.add_infinite (hx : HasValue x v) (hy : IsInfinite y) : IsInfinite (x + y) :=
  .ofModel_pack (hy.symm ▸ StandsFor.add_infinity hx)

theorem IsInfinite.sub_self (h : IsInfinite x) : IsNaN (x - x) :=
  .ofModel_pack (h.symm ▸ rfl)

theorem IsNaN.add (h : IsNaN x) : IsNaN (x + y) := by
  refine .ofModel_pack ?_
  rw [h]
  cases y.toModel.unpack <;> rfl

theorem IsNaN.sub (h : IsNaN x) : IsNaN (x - y) := by
  refine .ofModel_pack ?_
  rw [h]
  cases y.toModel.unpack <;> rfl

theorem IsNaN.toNat (h : IsNaN x) : Scalar.toNat x = 0 := by
  show (x.toModel.unpack.toUInt64).toNat = 0
  rw [h]
  rfl

/-- Nothing is left of a number that is divided by what is beyond all numbers. -/
theorem HasValue.div_infinite (hx : HasValue x v) (hy : IsInfinite y) : HasValue (x / y) 0 := by
  obtain ⟨sign, hzero⟩ := StandsFor.div_infinity hx
  have hdiv : x / y = .ofModel (.pack (.zero sign)) := by
    rw [← hzero, ← hy]
    rfl
  rw [hdiv]
  exact (StandsFor.zero sign).ofModel_pack.resolve_right fun h => by
    cases sign <;> exact nomatch h.1

theorem IsInfinite.not_lt (hx : IsInfinite x) (hy : HasValue y v) : ¬x < y := by
  rw [lt_iff_unpack, hx]
  exact StandsFor.not_infinity_lt hy

theorem IsNaN.not_lt (hx : IsNaN x) (y : Float) : ¬x < y := by
  rw [lt_iff_unpack, hx]
  cases y.toModel.unpack <;> exact Bool.false_ne_true

theorem IsInfinite.floor (h : IsInfinite x) : Scalar.floor x = x :=
  floor_eq_self (h.not_lt hasValue_limit) (h.not_lt hasValue_zero)

theorem IsNaN.floor (h : IsNaN x) : Scalar.floor x = x := floor_eq_self (h.not_lt _) (h.not_lt _)

end Beyond

/-! ### Which doubles are numbers -/

/-- Whether a double measures something: it is a number that is not below zero, or it is beyond all
numbers. -/
def IsMeasure (x : Float) : Prop := (∃ v, HasValue x v) ∨ IsInfinite x

section Numbers

variable {x : Float} {v : ℚ}

theorem IsInfinite.not_isFinite (h : IsInfinite x) : ¬x.isFinite = true := by
  show ¬x.toModel.unpack.isFinite = true
  rw [h]
  exact Bool.false_ne_true

/-- Measures are the doubles that are not below zero. -/
theorem isMeasure_iff : IsMeasure x ↔ 0 ≤ x := by
  rw [le_iff_unpack, unpack_zero]
  unfold IsMeasure HasValue IsInfinite
  cases hx : x.toModel.unpack with
  | notANumber => exact iff_of_false (by rintro (⟨v, hv⟩ | hv) <;> cases hv) Bool.false_ne_true
  | zero sign => exact iff_of_true (.inl ⟨0, .zero sign⟩) rfl
  | infinity sign =>
    cases sign with
    | positive => exact iff_of_true (.inr rfl) rfl
    | negative => exact iff_of_false (by rintro (⟨v, hv⟩ | hv) <;> cases hv) Bool.false_ne_true
  | finite sign mantissa exponent h =>
    cases sign with
    | positive => exact iff_of_true (.inl ⟨_, .finite (isCanonical_of_unpack hx).1 h⟩) rfl
    | negative => exact iff_of_false (by rintro (⟨v, hv⟩ | hv) <;> cases hv) Bool.false_ne_true

theorem zero_le_of_zero_lt (h : 0 < x) : 0 ≤ x := by
  rw [le_iff_unpack, UnpackedFloat.le, eq_of_beq (lt_iff_unpack.mp h)]
  rfl

/-- A finite double above zero stands for a number above zero. -/
theorem exists_hasValue (hfinite : x.isFinite = true) (hpos : 0 < x) : ∃ v, 0 < v ∧ HasValue x v := by
  obtain ⟨v, hv⟩ := (isMeasure_iff.mpr (zero_le_of_zero_lt hpos)).resolve_right
    fun hinfinite => hinfinite.not_isFinite hfinite
  exact ⟨v, (hasValue_zero.lt_iff hv).mp hpos, hv⟩

/-- No number above zero is smaller than the least step, or larger than all exponents allow. -/
theorem HasValue.bounds (h : HasValue x v) (hv : 0 < v) : leastStep ≤ v ∧ v < 2 ^ (1024 : Int) := by
  unfold HasValue at h
  generalize hx : x.toModel.unpack = a at h
  cases h with
  | zero => exact absurd hv (lt_irrefl 0)
  | @finite m e canonical hm =>
    have hlarge := (isCanonical_of_unpack hx).2
    have hone : (1 : ℚ) ≤ m := by exact_mod_cast hm
    have hlt : (m : ℚ) < (2 ^ 53 : Nat) := by exact_mod_cast canonical.lt
    constructor
    · calc leastStep ≤ 2 ^ e := zpow_le_zpow_right₀ (by norm_num) canonical.le_exponent
        _ ≤ m * 2 ^ e := le_mul_of_one_le_left (by positivity) hone
    · calc (m : ℚ) * 2 ^ e < (2 ^ 53 : Nat) * 2 ^ e := by gcongr
        _ = 2 ^ (53 + e) := by
          rw [zpow_add₀ (by norm_num)]
          norm_num
        _ ≤ 2 ^ (1024 : Int) := zpow_le_zpow_right₀ (by norm_num) (by omega)

/-- The least step is nothing against any number. -/
theorem HasValue.leastStep_mul_le (h : HasValue x v) (hv : 0 < v) : leastStep * v ≤ 1 / 2 ^ 50 := by
  have hpower : (1 : ℚ) / 2 ^ 50 = leastStep * 2 ^ (1024 : Int) := by
    rw [leastStep, ← zpow_add₀ (by norm_num)]
    norm_num
  rw [hpower]
  exact mul_le_mul_of_nonneg_left (h.bounds hv).2.le leastStep_pos.le

end Numbers

end Stave
