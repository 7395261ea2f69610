import Mathlib
import Stave.Scalar

/-!
# Comparing doubles

A normal double is a whole number of 53 bits, its mantissa, times a power of two.  Whole numbers below
`2 ^ 53` are normal doubles, a product of normal doubles is the exact product cut down to 53 bits and
possibly rounded up, and normal doubles are compared by their exponents first and then by their
mantissas.  (The equations of the float model are in no part of Mathlib but the whole.)
-/

namespace Stave

open Float.Model Float.Model.UnpackedFloat

/-- A double above zero with a mantissa of 53 bits and an exponent of two. -/
structure IsNormal (x : Float) (mantissa : Nat) (exponent : Int) : Prop where
  le_mantissa : 2 ^ 52 ≤ mantissa
  mantissa_lt : mantissa < 2 ^ 53
  exponent_mem : -1074 ≤ exponent ∧ exponent ≤ 971
  unpack_eq : ∃ h, x.toModel.unpack = .finite .positive mantissa exponent h

namespace IsNormal

/-! ## The bits of a double -/

theorem unpackSign_packComponents {format : Format} (sign : Sign)
    (exponent : BitVec format.exponentBits) (mantissa : BitVec format.mantissaBitsWithoutImplicit) :
    unpackSign (packComponents format sign exponent mantissa) = sign.toBitVec := by
  apply BitVec.eq_of_getLsbD_eq
  intro i hi
  obtain rfl : i = 0 := by omega
  simp [unpackSign, packComponents, BitVec.getLsbD_append, BitVec.getElem_append]

/-- The highest bit of a mantissa is not stored. -/
theorem toNat_append_mantissa {mantissa : Nat} (hle : 2 ^ 52 ≤ mantissa) (hlt : mantissa < 2 ^ 53) :
    (1#1 ++ BitVec.ofNat 52 mantissa).toNat = mantissa := by
  have hrest : (BitVec.ofNat 52 mantissa).toNat = mantissa - 2 ^ 52 := by
    rw [BitVec.toNat_ofNat]
    omega
  rw [BitVec.toNat_append, ← Nat.shiftLeft_add_eq_or_of_lt (BitVec.isLt _), hrest]
  simp [Nat.shiftLeft_eq]
  omega

theorem ofModel_pack {mantissa : Nat} {exponent : Int} (hle : 2 ^ 52 ≤ mantissa)
    (hlt : mantissa < 2 ^ 53) (hexponent : -1074 ≤ exponent ∧ exponent ≤ 971) (h : 0 < mantissa) :
    IsNormal (.ofModel (.pack (.finite .positive mantissa exponent h))) mantissa exponent := by
  refine ⟨hle, hlt, hexponent, h, ?_⟩
  have hlog : mantissa.log2 = 52 := (Nat.log2_eq_iff (Nat.ne_of_gt h)).mpr ⟨hle, hlt⟩
  obtain ⟨biased, rfl⟩ : ∃ biased : Nat, exponent = biased - 1075 :=
    ⟨(exponent + 1075).toNat, by omega⟩
  have hbits : (BitVec.ofNat 11 biased).toNat = biased := by
    rw [BitVec.toNat_ofNat, Nat.mod_eq_of_lt (by omega)]
  have hbiased : ((biased : Int) - 1075 + Format.binary64.exponentBias
      + Format.binary64.mantissaBitsWithoutImplicit).toNat = biased := by
    simp only [Format.exponentBias]
    omega
  have hpack : UnpackedFloat.pack Format.binary64 (.finite .positive mantissa (biased - 1075) h)
      = packComponents Format.binary64 .positive (BitVec.ofNat 11 biased)
        (BitVec.ofNat 52 mantissa) := by
    simp only [UnpackedFloat.pack, hbiased, hlog]
    rw [if_neg (by omega)]
    exact if_pos rfl
  -- neither of the two exponents that numbers of another kind have
  have hne {other : BitVec 11} (hother : biased ≠ other.toNat) : BitVec.ofNat 11 biased ≠ other :=
    fun heq => hother (hbits.symm.trans (congrArg BitVec.toNat heq))
  have hlargest : biased ≠ (-1#11).toNat := by
    rw [show (-1#11).toNat = 2047 from rfl]
    omega
  have hsmallest : biased ≠ (0#11).toNat := by
    rw [show (0#11).toNat = 0 from rfl]
    omega
  show UnpackedFloat.unpack Format.binary64
    (UnpackedFloat.pack Format.binary64 (.finite .positive mantissa (biased - 1075) h)) = _
  rw [hpack]
  simp only [UnpackedFloat.unpack, unpackExponent_packComponents, unpackMantissa_packComponents,
    unpackSign_packComponents]
  rw [if_neg (hne hlargest), if_neg (hne hsmallest), UnpackedFloat.finite.injEq]
  refine ⟨rfl, toNat_append_mantissa hle hlt, ?_⟩
  rw [hbits]
  rfl

/-! ## Rounding -/

theorem mantissa_shiftRight (m : ExtendedMantissa) (count : Nat) :
    (m >>> count).mantissa = m.mantissa / 2 ^ count := by
  induction count with
  | zero => exact (Nat.div_one _).symm
  | succ count ih =>
    show (m >>> count).mantissa / 2 = _
    rw [ih, Nat.div_div_eq_div_mul, Nat.pow_succ]

theorem le_roundedMantissa (m : ExtendedMantissa) :
    m.mantissa ≤ m.roundedMantissa ∧ m.roundedMantissa ≤ m.mantissa + 1 := by
  obtain ⟨mantissa, roundBit, stickyBit⟩ := m
  cases roundBit <;> cases stickyBit <;>
    simp only [ExtendedMantissa.roundedMantissa, ExtendedMantissa.accuracy,
      Accuracy.roundToNearestEven] <;> omega

/-- A number of more than 53 bits is cut down to them. -/
theorem shiftToTargetExponent_eq {mantissa : Nat} (extra : Nat) (exponent : Int)
    (hlog : mantissa.log2 = 52 + extra) (hexponent : -1074 ≤ exponent + extra) :
    shiftToTargetExponent Format.binary64 mantissa exponent .exact
      = ((⟨mantissa, false, false⟩ : ExtendedMantissa) >>> extra, exponent + extra) := by
  have htarget : Format.binary64.targetExponent (totalExponent mantissa exponent)
      = exponent + extra := by
    simp only [Format.targetExponent, totalExponent, Format.mantissaBits, Format.minExponent, hlog]
    push_cast
    omega
  have hamount : (exponent + extra - exponent).toNat = extra := by omega
  rw [shiftToTargetExponent, htarget, shiftToExponent, hamount]
  rfl

/-- A number of 53 bits is left as it is. -/
theorem round_of_log2_eq {mantissa : Nat} {exponent : Int} (sign : Sign) (hlog : mantissa.log2 = 52)
    (hexponent : -1074 ≤ exponent) (h : 0 < mantissa) :
    roundWithAccuracy Format.binary64 sign mantissa exponent .exact
      = .finite sign mantissa exponent h := by
  have hsame := shiftToTargetExponent_eq 0 exponent hlog (by simpa using hexponent)
  rw [Nat.cast_zero, add_zero] at hsame
  have hrounded : ((⟨mantissa, false, false⟩ : ExtendedMantissa) >>> 0).roundedMantissa = mantissa := rfl
  rw [roundWithAccuracy, hsame]
  dsimp only
  rw [hrounded, hsame]
  exact dif_neg (Nat.ne_of_gt h)

variable {x y : Float} {m n : Nat} {e f : Int}

/-- Normal doubles are compared by their exponents, and by their mantissas where these are equal. -/
theorem le_iff (hx : IsNormal x m e) (hy : IsNormal y n f) : x ≤ y ↔ e < f ∨ e = f ∧ m ≤ n := by
  obtain ⟨_, hx⟩ := hx.unpack_eq
  obtain ⟨_, hy⟩ := hy.unpack_eq
  have hle : x ≤ y ↔ x.toModel.unpack.le y.toModel.unpack = true := decide_eq_true_iff
  rw [hle, hx, hy]
  show ((compare e f).then (compare m n)).isLE = true ↔ _
  rcases lt_trichotomy e f with hlt | rfl | hgt
  · rw [compare_lt_iff_lt.mpr hlt]
    simp [hlt]
  · simp [Std.isLE_compare]
  · rw [compare_gt_iff_gt.mpr hgt]
    simp [hgt.not_gt, hgt.ne']

/-- A whole number that fits into a mantissa is a double. -/
theorem ofNat {n : Nat} (hpos : 0 < n) (hlt : n < 2 ^ 53) :
    IsNormal (Scalar.ofNat n) (n * 2 ^ (52 - n.log2)) (n.log2 - 52) := by
  have hlog : n.log2 ≤ 52 := Nat.le_of_lt_succ ((Nat.log2_lt (Nat.ne_of_gt hpos)).mpr hlt)
  obtain ⟨hlow, hhigh⟩ := (Nat.log2_eq_iff (Nat.ne_of_gt hpos)).mp rfl
  have hle : 2 ^ 52 ≤ n * 2 ^ (52 - n.log2) :=
    calc 2 ^ 52 = 2 ^ n.log2 * 2 ^ (52 - n.log2) := by rw [← pow_add, Nat.add_sub_cancel' hlog]
      _ ≤ n * 2 ^ (52 - n.log2) := Nat.mul_le_mul_right _ hlow
  have hfits : n * 2 ^ (52 - n.log2) < 2 ^ 53 :=
    calc n * 2 ^ (52 - n.log2) < 2 ^ (n.log2 + 1) * 2 ^ (52 - n.log2) :=
          Nat.mul_lt_mul_of_pos_right hhigh (by positivity)
      _ = 2 ^ 53 := by rw [← pow_add, show n.log2 + 1 + (52 - n.log2) = 53 by omega]
  have hround : UnpackedFloat.ofNat Format.binary64 n
      = .finite .positive (n * 2 ^ (52 - n.log2)) (n.log2 - 52) (by positivity) := by
    have hsign : compare (n : Int) 0 = .gt := compare_gt_iff_gt.mpr (by omega)
    have htarget : Format.binary64.targetExponent (totalExponent n 0) = n.log2 - 52 := by
      simp only [Format.targetExponent, totalExponent, Format.mantissaBits, Format.minExponent]
      push_cast
      omega
    have hamount : (0 - ((n.log2 : Int) - 52)).toNat = 52 - n.log2 := by omega
    have hexponent : (0 : Int) - (52 - n.log2 : Nat) = n.log2 - 52 := by omega
    rw [UnpackedFloat.ofNat, UnpackedFloat.ofInt, UnpackedFloat.normalize, hsign]
    dsimp only
    rw [Int.toNat_natCast, UnpackedFloat.round, htarget, decreaseExponent, hamount]
    dsimp only
    rw [Nat.shiftLeft_eq, hexponent]
    exact round_of_log2_eq _ ((Nat.log2_eq_iff (by omega)).mpr ⟨hle, hfits⟩) (by omega) _
  have hfloat : (Scalar.ofNat n : Float)
      = .ofModel (.pack (UnpackedFloat.ofNat Format.binary64 n)) := by
    have hsame : (UInt64.ofNat n).toNat = n := by
      rw [UInt64.toNat_ofNat', Nat.mod_eq_of_lt (by omega)]
    show Float.ofModel (.pack (UnpackedFloat.ofNat Format.binary64 (UInt64.ofNat n).toNat)) = _
    rw [hsame]
  rw [hfloat, hround]
  exact ofModel_pack hle hfits ⟨by omega, by omega⟩ _

end IsNormal

end Stave
