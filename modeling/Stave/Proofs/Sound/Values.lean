import Mathlib.Algebra.Order.Field.Power
import Mathlib.Algebra.Order.Field.Rat
import Mathlib.Tactic.Linarith
import Mathlib.Tactic.Positivity
import Mathlib.Tactic.Ring
import Stave.Proofs.Sound.Doubles

/-!
# The numbers that doubles stand for

A double that is not below zero stands for a rational number.  An operation on doubles gives the exact
result cut down to a multiple of some power of two and possibly rounded up to the next one; where that
is too large for a double, it gives infinity.
-/

namespace Stave

open Float.Model Float.Model.UnpackedFloat

/-! ## Rounded numbers -/

/-- The least step between two doubles. -/
def leastStep : ℚ := 2 ^ (-1074 : Int)

theorem leastStep_pos : 0 < leastStep := zpow_pos (by norm_num) _

/-- One number is another one rounded: it is a multiple of a power of two, and the other one is less
than one step away from it.  The power is small against the number, unless it is the least power of
all. -/
def IsRounded (v w : ℚ) : Prop :=
  ∃ (step : Int) (n : Nat), -1074 ≤ step ∧ (step = -1074 ∨ (2 : ℚ) ^ (step + 52) ≤ v)
    ∧ w = n * 2 ^ step ∧ n * 2 ^ step ≤ v + 2 ^ step ∧ v < (n + 1) * 2 ^ step

namespace IsRounded

variable {v w : ℚ}

theorem nonneg (h : IsRounded v w) : 0 ≤ w := by
  obtain ⟨step, n, -, -, rfl, -, -⟩ := h
  positivity

/-- A step is no larger than the number itself, unless it is the least one. -/
theorem step_le {step : Int} (h : step = -1074 ∨ (2 : ℚ) ^ (step + 52) ≤ v) (hv : 0 ≤ v) :
    (2 : ℚ) ^ step ≤ v + leastStep := by
  rcases h with rfl | h
  · exact le_add_of_nonneg_left hv
  · have hle : (2 : ℚ) ^ step ≤ 2 ^ (step + 52) := zpow_le_zpow_right₀ (by norm_num) (by omega)
    exact (hle.trans h).trans (le_add_of_nonneg_right leastStep_pos.le)

/-- A step is a small share of the number itself, unless it is the least one. -/
theorem step_le_share {step : Int} (h : step = -1074 ∨ (2 : ℚ) ^ (step + 52) ≤ v) (hv : 0 ≤ v) :
    (2 : ℚ) ^ step ≤ v / 2 ^ 52 + leastStep := by
  rcases h with rfl | h
  · exact le_add_of_nonneg_left (by positivity)
  · have hshare : (2 : ℚ) ^ step ≤ v / 2 ^ 52 := by
      rw [zpow_add₀ (by norm_num)] at h
      rw [le_div_iff₀ (by positivity)]
      exact_mod_cast h
    exact hshare.trans (le_add_of_nonneg_right leastStep_pos.le)

/-- Rounding changes a number by a small share of it, or by the least step. -/
theorem abs_sub_le (h : IsRounded v w) (hv : 0 ≤ v) : |w - v| ≤ v / 2 ^ 52 + leastStep := by
  obtain ⟨step, n, -, hstep, rfl, hle, hlt⟩ := h
  have hshare := step_le_share hstep hv
  rw [abs_le]
  constructor <;> linarith

/-- Rounding up adds little to a number, or makes the least one of it. -/
theorem le_add (h : IsRounded v w) (hv : 0 ≤ v) : w ≤ v + v / 2 ^ 52 + leastStep := by
  have hnear := (abs_le.mp (h.abs_sub_le hv)).2
  linarith

/-- Rounding up at most doubles a number, or makes the least one of it. -/
theorem le_two_mul (h : IsRounded v w) (hv : 0 ≤ v) : w ≤ 2 * v + leastStep := by
  have hle := h.le_add hv
  linarith

/-- Rounding down at most halves a number, or makes nothing of one below the least. -/
theorem le_two_mul_rounded (h : IsRounded v w) (hv : 0 ≤ v) : v ≤ 2 * w + leastStep := by
  obtain ⟨step, n, -, hstep, rfl, -, hlt⟩ := h
  have hpos : (0 : ℚ) < 2 ^ step := by positivity
  have hleast := leastStep_pos
  rcases Nat.eq_zero_or_pos n with rfl | hn
  · -- nothing is left of the number, so that it is below one step
    rw [Nat.cast_zero, zero_add, one_mul] at hlt
    rcases hstep with rfl | hstep
    · rw [Nat.cast_zero, zero_mul, mul_zero, zero_add]
      exact hlt.le
    · have hle : (2 : ℚ) ^ step ≤ 2 ^ (step + 52) := zpow_le_zpow_right₀ (by norm_num) (by omega)
      exact absurd hlt (hle.trans hstep).not_gt
  · have hone : (1 : ℚ) ≤ n := by exact_mod_cast hn
    nlinarith

/-- A number that is not above a multiple of a power of two is not rounded to one that is, as long as
the power is not too small against it. -/
theorem le_of_lt (h : IsRounded v w) (bound : Nat) (exponent : Int) (hleast : -1074 ≤ exponent)
    (hlt : v < bound * 2 ^ exponent) (hsmall : v < 2 ^ (exponent + 53)) :
    w ≤ bound * 2 ^ exponent := by
  obtain ⟨step, n, -, hstep, rfl, hle, -⟩ := h
  have hexponent : step ≤ exponent := by
    rcases hstep with rfl | hstep
    · exact hleast
    · have := (zpow_lt_zpow_iff_right₀ (by norm_num : (1 : ℚ) < 2)).mp (hstep.trans_lt hsmall)
      omega
  obtain ⟨k, rfl⟩ := Int.exists_add_of_le hexponent
  have hpos : (0 : ℚ) < 2 ^ step := by positivity
  rw [zpow_add₀ (by norm_num), zpow_natCast] at hlt ⊢
  have hn : (n : ℚ) < (bound * 2 ^ k + 1 : Nat) := by
    push_cast
    by_contra hge
    nlinarith
  have hn' : (n : ℚ) ≤ (bound * 2 ^ k : Nat) :=
    Nat.cast_le.mpr (Nat.lt_succ_iff.mp (Nat.cast_lt.mp hn))
  push_cast at hn'
  nlinarith

end IsRounded

/-! ## Mantissas and exponents -/

/-- A mantissa of at most 53 bits and an exponent of two.  All bits are taken up, unless the exponent
is the least one. -/
structure IsCanonical (mantissa : Nat) (exponent : Int) : Prop where
  lt : mantissa < 2 ^ 53
  le_exponent : -1074 ≤ exponent
  full : 2 ^ 52 ≤ mantissa ∨ exponent = -1074

/-- The number that an unpacked double stands for, as long as it is not below zero. -/
inductive StandsFor : UnpackedFloat → ℚ → Prop
  | zero (sign : Sign) : StandsFor (.zero sign) 0
  | finite {mantissa : Nat} {exponent : Int} (canonical : IsCanonical mantissa exponent)
      (h : 0 < mantissa) : StandsFor (.finite .positive mantissa exponent h) (mantissa * 2 ^ exponent)

/-- The unpacked double that a number is rounded to. -/
def Approximates (u : UnpackedFloat) (v : ℚ) : Prop := ∃ w, IsRounded v w ∧ StandsFor u w

/-- The last bit of a canonical mantissa is small against the number. -/
theorem IsCanonical.step_le {mantissa : Nat} {exponent : Int} (h : IsCanonical mantissa exponent) :
    exponent = -1074 ∨ (2 : ℚ) ^ (exponent + 52) ≤ mantissa * 2 ^ exponent := by
  refine h.full.symm.imp_right fun hfull => ?_
  have hcast : (2 : ℚ) ^ 52 ≤ mantissa := by exact_mod_cast hfull
  rw [add_comm, zpow_add₀ (by norm_num)]
  exact mul_le_mul_of_nonneg_right hcast (by positivity)

/-- A number with a canonical mantissa is rounded already. -/
theorem IsCanonical.isRounded {mantissa : Nat} {exponent : Int}
    (h : IsCanonical mantissa exponent) :
    IsRounded (mantissa * 2 ^ exponent) (mantissa * 2 ^ exponent) := by
  have hpos : (0 : ℚ) < 2 ^ exponent := by positivity
  exact ⟨exponent, mantissa, h.le_exponent, h.step_le, rfl, by linarith, by linarith⟩

theorem StandsFor.isRounded {x : UnpackedFloat} {v : ℚ} (h : StandsFor x v) : IsRounded v v := by
  cases h with
  | zero => exact ⟨-1074, 0, le_rfl, .inl rfl, by simp, by simp, by simp⟩
  | finite canonical => exact canonical.isRounded

theorem StandsFor.approximates {u : UnpackedFloat} {v : ℚ} (h : StandsFor u v) : Approximates u v :=
  ⟨v, h.isRounded, h⟩

theorem StandsFor.nonneg {x : UnpackedFloat} {v : ℚ} (h : StandsFor x v) : 0 ≤ v :=
  h.isRounded.nonneg

/-! ## Rounding -/

/-- The exponent that rounding leaves. -/
theorem targetExponent_eq (mantissa : Nat) (exponent : Int) :
    Format.binary64.targetExponent (totalExponent mantissa exponent)
      = max (mantissa.log2 + exponent - 52) (-1074) := by
  simp only [Format.targetExponent, totalExponent, Format.mantissaBits, Format.minExponent]
  push_cast
  omega

theorem mantissa_ofMantissaAndAccuracy (mantissa : Nat) (accuracy : Accuracy) :
    (ExtendedMantissa.ofMantissaAndAccuracy mantissa accuracy).mantissa = mantissa := by
  rcases accuracy with _ | (_ | _ | _) <;> rfl

/-- A mantissa that fits is left as it is. -/
theorem shiftToTargetExponent_of_lt {mantissa : Nat} {exponent : Int} (hlt : mantissa < 2 ^ 53)
    (hexponent : -1074 ≤ exponent) :
    shiftToTargetExponent Format.binary64 mantissa exponent .exact
      = (⟨mantissa, false, false⟩, exponent) := by
  have hlog : mantissa.log2 < 53 := by
    rcases Nat.eq_zero_or_pos mantissa with rfl | hpos
    · decide
    · exact (Nat.log2_lt hpos.ne').mpr hlt
  have hamount : (max (mantissa.log2 + exponent - 52) (-1074) - exponent).toNat = 0 := by omega
  rw [shiftToTargetExponent, targetExponent_eq, shiftToExponent, hamount, Nat.cast_zero, add_zero]
  rfl

/-- A mantissa with one bit too many, which rounding up has made, is halved. -/
theorem shiftToTargetExponent_of_eq {exponent : Int} (hexponent : -1074 ≤ exponent) :
    ∃ m : ExtendedMantissa, m.mantissa = 2 ^ 52
      ∧ shiftToTargetExponent Format.binary64 (2 ^ 53) exponent .exact = (m, exponent + 1) := by
  have hlog : (2 ^ 53 : Nat).log2 = 52 + 1 := by decide
  have hshift := IsNormal.shiftToTargetExponent_eq 1 exponent hlog (by omega)
  exact ⟨_, IsNormal.mantissa_shiftRight _ 1, hshift⟩

/-- The number whose mantissa rounding has left, with at most one bit too many. -/
theorem standsFor_of_le {rounded : Nat} {exponent : Int} (hle : rounded ≤ 2 ^ 53)
    (hexponent : -1074 ≤ exponent) (hfull : 2 ^ 52 ≤ rounded ∨ exponent = -1074)
    {mantissa : Nat} {first : Int} {accuracy : Accuracy} {cut : ExtendedMantissa}
    (hcut : shiftToTargetExponent Format.binary64 mantissa first accuracy = (cut, exponent))
    (hrounded : cut.roundedMantissa = rounded) :
    StandsFor (roundWithAccuracy Format.binary64 .positive mantissa first accuracy)
      (rounded * 2 ^ exponent) := by
  rw [roundWithAccuracy, hcut]
  dsimp only
  rw [hrounded]
  rcases Nat.lt_or_eq_of_le hle with hlt | rfl
  · rw [shiftToTargetExponent_of_lt hlt hexponent]
    dsimp only
    split
    · next hzero =>
      rw [hzero, Nat.cast_zero, zero_mul]
      exact .zero _
    · exact .finite ⟨hlt, hexponent, hfull⟩ _
  · obtain ⟨last, hlast, hshift⟩ := shiftToTargetExponent_of_eq hexponent
    have hvalue : ((2 ^ 53 : Nat) : ℚ) * 2 ^ exponent = last.mantissa * 2 ^ (exponent + 1) := by
      rw [hlast, zpow_add₀ (by norm_num)]
      push_cast
      ring
    rw [hshift, hvalue]
    dsimp only
    rw [dif_neg (by rw [hlast]; decide)]
    exact .finite ⟨by rw [hlast]; decide, by omega, .inl hlast.ge⟩ _

/-- Cutting off bits leaves a number between the same two steps. -/
theorem between_steps {mantissa : Nat} {exponent : Int} (k : Nat) {v : ℚ}
    (hlow : mantissa * 2 ^ exponent ≤ v) (hhigh : v < (mantissa + 1) * 2 ^ exponent) :
    (mantissa / 2 ^ k : Nat) * 2 ^ (exponent + k) ≤ v
      ∧ v < ((mantissa / 2 ^ k : Nat) + 1) * 2 ^ (exponent + k) := by
  have hmod := Nat.div_add_mod' mantissa (2 ^ k)
  have hrest := Nat.mod_lt mantissa (Nat.two_pow_pos k)
  generalize mantissa / 2 ^ k = cut at hmod
  have hpos : (0 : ℚ) < 2 ^ exponent := by positivity
  have hle : (cut : ℚ) * 2 ^ k ≤ mantissa := by
    exact_mod_cast (show cut * 2 ^ k ≤ mantissa by omega)
  have hlt : (mantissa : ℚ) + 1 ≤ (cut + 1) * 2 ^ k := by
    have hnat : mantissa + 1 ≤ (cut + 1) * 2 ^ k := by
      rw [Nat.succ_mul]
      omega
    exact_mod_cast hnat
  rw [zpow_add₀ (by norm_num), zpow_natCast]
  constructor <;> nlinarith

/-- A mantissa with enough bits is cut down to a canonical one. -/
theorem exists_cut {mantissa : Nat} {exponent : Int} (accuracy : Accuracy)
    (hbits : 2 ^ 52 ≤ mantissa ∨ exponent ≤ -1074) :
    ∃ (k : Nat) (cut : ExtendedMantissa),
      shiftToTargetExponent Format.binary64 mantissa exponent accuracy = (cut, exponent + k)
        ∧ cut.mantissa = mantissa / 2 ^ k ∧ IsCanonical cut.mantissa (exponent + k) := by
  replace hbits : 52 ≤ mantissa.log2 ∨ exponent ≤ -1074 :=
    hbits.imp_left fun hle => (Nat.le_log2 (by omega)).mpr hle
  obtain ⟨k, hk⟩ : ∃ k : Nat, max (mantissa.log2 + exponent - 52) (-1074) = exponent + k :=
    Int.exists_add_of_le (by omega)
  have hamount : (exponent + (k : Int) - exponent).toNat = k := by omega
  have hmantissa : (ExtendedMantissa.ofMantissaAndAccuracy mantissa accuracy >>> k).mantissa
      = mantissa / 2 ^ k := by
    rw [IsNormal.mantissa_shiftRight, mantissa_ofMantissaAndAccuracy]
  refine ⟨k, ExtendedMantissa.ofMantissaAndAccuracy mantissa accuracy >>> k, ?_, hmantissa, ?_⟩
  · rw [shiftToTargetExponent, targetExponent_eq, hk, shiftToExponent, hamount]
  rw [hmantissa]
  refine ⟨?_, by omega, ?_⟩
  · rw [Nat.div_lt_iff_lt_mul (Nat.two_pow_pos k), ← Nat.pow_add]
    exact (Nat.lt_log2_self).trans_le (Nat.pow_le_pow_right (by decide) (by omega))
  · by_cases hleast : exponent + k = -1074
    · exact .inr hleast
    have hne : mantissa ≠ 0 := by
      rintro rfl
      rw [Nat.log2_zero] at hbits hk
      omega
    left
    rw [Nat.le_div_iff_mul_le (Nat.two_pow_pos k), ← Nat.pow_add,
      show 52 + k = mantissa.log2 by omega]
    exact Nat.log2_self_le hne

/-- A number is rounded that is known up to the last bit of a mantissa. -/
theorem approximates_roundWithAccuracy {mantissa : Nat} {exponent : Int} (accuracy : Accuracy) {v : ℚ}
    (hlow : mantissa * 2 ^ exponent ≤ v) (hhigh : v < (mantissa + 1) * 2 ^ exponent)
    (hbits : 2 ^ 52 ≤ mantissa ∨ exponent ≤ -1074) :
    Approximates (roundWithAccuracy Format.binary64 .positive mantissa exponent accuracy) v := by
  obtain ⟨k, cut, hshift, hmantissa, hcanonical⟩ := exists_cut accuracy hbits
  obtain ⟨hcutLow, hcutHigh⟩ := between_steps k hlow hhigh
  rw [← hmantissa] at hcutLow hcutHigh
  obtain ⟨hmin, hmax⟩ := IsNormal.le_roundedMantissa cut
  have hlt := hcanonical.lt
  have hpos : (0 : ℚ) < 2 ^ (exponent + k) := by positivity
  have hminCast : (cut.mantissa : ℚ) ≤ cut.roundedMantissa := by exact_mod_cast hmin
  have hmaxCast : (cut.roundedMantissa : ℚ) ≤ cut.mantissa + 1 := by exact_mod_cast hmax
  refine ⟨cut.roundedMantissa * 2 ^ (exponent + k),
    ⟨exponent + k, cut.roundedMantissa, hcanonical.le_exponent,
      hcanonical.step_le.imp_right hcutLow.trans', rfl, by nlinarith, by nlinarith⟩, ?_⟩
  exact standsFor_of_le (by omega) hcanonical.le_exponent
    (hcanonical.full.imp_left hmin.trans') hshift rfl

/-! ## Bits -/

/-- The number that a double stands for, as long as it is not below zero. -/
def HasValue (x : Float) (v : ℚ) : Prop := StandsFor x.toModel.unpack v

/-- The double beyond all numbers. -/
def IsInfinite (x : Float) : Prop := x.toModel.unpack = .infinity .positive

theorem unpack_pack_subnormal {mantissa : Nat} (hlt : mantissa < 2 ^ 52) (h : 0 < mantissa) :
    (Float.Model.pack (.finite .positive mantissa (-1074) h)).unpack
      = .finite .positive mantissa (-1074) h := by
  have hlog : mantissa.log2 < 52 := (Nat.log2_lt h.ne').mpr hlt
  have hbits : (BitVec.ofNat 52 mantissa).toNat = mantissa := by
    rw [BitVec.toNat_ofNat, Nat.mod_eq_of_lt hlt]
  have hne : BitVec.ofNat 52 mantissa ≠ 0#52 := fun heq => by
    rw [heq] at hbits
    exact h.ne hbits
  have hpack : UnpackedFloat.pack Format.binary64 (.finite .positive mantissa (-1074) h)
      = packComponents Format.binary64 .positive 0#11 (BitVec.ofNat 52 mantissa) := by
    simp only [UnpackedFloat.pack]
    rw [if_neg (by decide)]
    exact if_neg (by simp only [Format.mantissaBits]; omega)
  show UnpackedFloat.unpack Format.binary64
    (UnpackedFloat.pack Format.binary64 (.finite .positive mantissa (-1074) h)) = _
  rw [hpack]
  simp only [UnpackedFloat.unpack, unpackExponent_packComponents, unpackMantissa_packComponents,
    IsNormal.unpackSign_packComponents]
  rw [if_neg (by decide), if_pos trivial, dif_neg hne, UnpackedFloat.finite.injEq]
  exact ⟨rfl, hbits, rfl⟩

theorem unpack_pack_of_lt {mantissa : Nat} {exponent : Int} (hlt : 971 < exponent)
    (h : 0 < mantissa) :
    (Float.Model.pack (.finite .positive mantissa exponent h)).unpack = .infinity .positive := by
  have hpack : UnpackedFloat.pack Format.binary64 (.finite .positive mantissa exponent h)
      = packedInfinity Format.binary64 .positive := by
    simp only [UnpackedFloat.pack]
    exact if_pos (by simp only [Format.exponentBias]; omega)
  show UnpackedFloat.unpack Format.binary64
    (UnpackedFloat.pack Format.binary64 (.finite .positive mantissa exponent h)) = _
  rw [hpack]
  rfl

/-- A number with a canonical mantissa that is not too large is stored as it is. -/
theorem unpack_pack_of_le {mantissa : Nat} {exponent : Int} (canonical : IsCanonical mantissa exponent)
    (hle : exponent ≤ 971) (h : 0 < mantissa) :
    (Float.Model.pack (.finite .positive mantissa exponent h)).unpack
      = .finite .positive mantissa exponent h := by
  by_cases hnormal : 2 ^ 52 ≤ mantissa
  · exact (IsNormal.ofModel_pack hnormal canonical.lt ⟨canonical.le_exponent, hle⟩ h).unpack_eq.2
  · obtain rfl := canonical.full.resolve_left hnormal
    exact unpack_pack_subnormal (Nat.not_le.mp hnormal) h

/-- What stands for a number is stored, unless the number is too large. -/
theorem StandsFor.ofModel_pack {u : UnpackedFloat} {v : ℚ} (h : StandsFor u v) :
    HasValue (.ofModel (.pack u)) v ∨ IsInfinite (.ofModel (.pack u)) ∧ 2 ^ (1024 : Int) ≤ v := by
  cases h with
  | zero sign =>
    have hunpack : (Float.Model.pack (.zero sign)).unpack = .zero sign := by
      cases sign <;> rfl
    left
    show StandsFor (Float.Model.pack (.zero sign)).unpack 0
    rw [hunpack]
    exact .zero sign
  | @finite mantissa exponent canonical h =>
    by_cases hlarge : 971 < exponent
    · refine .inr ⟨unpack_pack_of_lt hlarge h, ?_⟩
      have hmantissa : (2 : ℚ) ^ (52 : Int) ≤ mantissa := by
        exact_mod_cast canonical.full.resolve_right (by omega)
      have hexponent : (2 : ℚ) ^ (972 : Int) ≤ 2 ^ exponent :=
        zpow_le_zpow_right₀ (by norm_num) (by omega)
      rw [show (1024 : Int) = 52 + 972 from rfl, zpow_add₀ (by norm_num)]
      exact mul_le_mul hmantissa hexponent (by positivity) (Nat.cast_nonneg _)
    · left
      show StandsFor (Float.Model.pack (.finite .positive mantissa exponent h)).unpack _
      rw [unpack_pack_of_le canonical (not_lt.mp hlarge) h]
      exact .finite canonical h

/-- What the bits of a double stand for has a canonical mantissa, and an exponent that is not too
large. -/
theorem isCanonical_of_unpack {x : Float} {sign : Sign} {mantissa : Nat} {exponent : Int}
    {h : 0 < mantissa} (hx : x.toModel.unpack = .finite sign mantissa exponent h) :
    IsCanonical mantissa exponent ∧ exponent ≤ 971 := by
  have hlast : (@unpackMantissa Format.binary64 x.toModel.toBits.toBitVec).toNat < 2 ^ 52 :=
    BitVec.isLt _
  have hbiased : (@unpackExponent Format.binary64 x.toModel.toBits.toBitVec).toNat < 2 ^ 11 :=
    BitVec.isLt _
  unfold Float.Model.unpack UnpackedFloat.unpack at hx
  dsimp only at hx
  split at hx
  · split at hx <;> cases hx
  next hlargest =>
  split at hx
  · next hleast =>
    split at hx
    · cases hx
    · obtain ⟨-, rfl, rfl⟩ := UnpackedFloat.finite.inj hx
      rw [hleast]
      exact ⟨⟨by omega, le_rfl, .inr rfl⟩, by decide⟩
  · next hleast =>
    obtain ⟨-, rfl, rfl⟩ := UnpackedFloat.finite.inj hx
    have hmantissa : (1#1 ++ @unpackMantissa Format.binary64 x.toModel.toBits.toBitVec).toNat
        = 2 ^ 52 + (@unpackMantissa Format.binary64 x.toModel.toBits.toBitVec).toNat := by
      rw [BitVec.toNat_append, ← Nat.shiftLeft_add_eq_or_of_lt (BitVec.isLt _)]
      rfl
    have hne {other : BitVec 11}
        (h : @unpackExponent Format.binary64 x.toModel.toBits.toBitVec ≠ other) :
        (@unpackExponent Format.binary64 x.toModel.toBits.toBitVec).toNat ≠ other.toNat :=
      fun heq => h (BitVec.eq_of_toNat_eq heq)
    have hpos := hne hleast
    have hlt := hne hlargest
    rw [show (0#11).toNat = 0 from rfl] at hpos
    rw [show (-1#11).toNat = 2047 from rfl] at hlt
    rw [hmantissa]
    change IsCanonical _ (_ - 1075) ∧ _ - (1075 : Int) ≤ 971
    exact ⟨⟨by omega, by omega, .inl (Nat.le_add_right _ _)⟩, by omega⟩

end Stave
