import Stave.Proofs.Sound.Arithmetic

/-!
# Doubles of either sign

The opposite of a double has the same bits but for the sign, so that the least whole number not below a
double can be found from its opposite.  Every double is a number, an infinity or not a number at all, and
what it counts stops at the end of a word.
-/

namespace Stave

open Float.Model Float.Model.UnpackedFloat

/-! ## Opposites -/

theorem ofBitVec_toBitVec (sign : Sign) : Sign.ofBitVec sign.toBitVec = sign := by
  cases sign <;> rfl

/-- A number that is stored as it is, is stored so with either sign. -/
theorem unpack_pack_of_sign {mantissa : Nat} {exponent : Int} {h : 0 < mantissa}
    (hsame : (Float.Model.pack (.finite .positive mantissa exponent h)).unpack
      = .finite .positive mantissa exponent h) (sign : Sign) :
    (Float.Model.pack (.finite sign mantissa exponent h)).unpack
      = .finite sign mantissa exponent h := by
  -- which bits there are behind the sign does not depend on it
  obtain ⟨e, m, hpack⟩ : ∃ e m, ∀ sign, UnpackedFloat.pack Format.binary64
      (.finite sign mantissa exponent h) = packComponents Format.binary64 sign e m := by
    unfold UnpackedFloat.pack
    dsimp only
    split
    · exact ⟨_, _, fun _ => rfl⟩
    · split <;> exact ⟨_, _, fun _ => rfl⟩
  unfold Float.Model.unpack Float.Model.pack at hsame ⊢
  dsimp only at hsame ⊢
  rw [hpack] at hsame ⊢
  simp only [UnpackedFloat.unpack, unpackExponent_packComponents, unpackMantissa_packComponents,
    IsNormal.unpackSign_packComponents, ofBitVec_toBitVec] at hsame ⊢
  split at hsame
  · split at hsame <;> cases hsame
  next hlargest =>
  rw [if_neg hlargest]
  split at hsame
  · next hleast =>
    rw [if_pos hleast]
    split at hsame
    · cases hsame
    · next hnonzero =>
      obtain ⟨-, hmantissa, hexponent⟩ := UnpackedFloat.finite.inj hsame
      rw [dif_neg hnonzero, UnpackedFloat.finite.injEq]
      exact ⟨rfl, hmantissa, hexponent⟩
  · next hleast =>
    obtain ⟨-, hmantissa, hexponent⟩ := UnpackedFloat.finite.inj hsame
    rw [if_neg hleast, UnpackedFloat.finite.injEq]
    exact ⟨rfl, hmantissa, hexponent⟩

/-- A double is its opposite but for the sign. -/
theorem unpack_neg (x : Float) : (-x).toModel.unpack = x.toModel.unpack.neg := by
  show (Float.Model.pack x.toModel.unpack.neg).unpack = x.toModel.unpack.neg
  cases hx : x.toModel.unpack with
  | notANumber => rfl
  | infinity sign => cases sign <;> rfl
  | zero sign => cases sign <;> rfl
  | finite sign mantissa exponent h =>
    obtain ⟨hcanonical, hle⟩ := isCanonical_of_unpack hx
    exact unpack_pack_of_sign (unpack_pack_of_le hcanonical hle h) (-sign)

namespace StandsFor

variable {a b : UnpackedFloat} {u v : ℚ}

theorem neg_neg (ha : StandsFor a u) : StandsFor a.neg.neg u := by
  cases ha with
  | zero => exact .zero _
  | finite canonical h => exact .finite canonical h

/-- Numbers are compared the other way round when both are made their opposites. -/
theorem lt_neg (ha : StandsFor a u) (hb : StandsFor b v) : a.neg.lt b.neg = b.lt a := by
  cases ha with
  | zero =>
    cases hb with
    | zero | finite => rfl
  | @finite m e =>
    cases hb with
    | zero => rfl
    | @finite n f =>
      show (some ((compare e f).then (compare m n)).swap == some Ordering.lt)
        = (some ((compare f e).then (compare n m)) == some Ordering.lt)
      rw [Ordering.swap_then, ← Std.OrientedCmp.eq_swap, ← Std.OrientedCmp.eq_swap]

theorem neg_lt_zero_iff (ha : StandsFor a u) (sign : Sign) : a.neg.lt (.zero sign) = true ↔ 0 < u := by
  cases ha with
  | zero => exact iff_of_false (fun h => nomatch h) (lt_irrefl 0)
  | @finite m e _ h =>
    have hpos : (0 : ℚ) < m * 2 ^ e := by positivity
    exact iff_of_true rfl hpos

theorem infinity_add (ha : StandsFor a u) :
    UnpackedFloat.add Format.binary64 (.infinity .positive) a = .infinity .positive := by
  cases ha <;> rfl

theorem infinity_mul_zero (ha : StandsFor a u) (hu : u = 0) :
    UnpackedFloat.mul Format.binary64 (.infinity .positive) a = .notANumber := by
  cases ha with
  | zero => rfl
  | @finite m e _ h =>
    have hpos : (0 : ℚ) < m * 2 ^ e := by positivity
    exact absurd hu hpos.ne'

theorem lt_infinity (ha : StandsFor a u) : a.lt (.infinity .positive) = true := by
  cases ha <;> rfl

theorem le_iff (ha : StandsFor a u) (hb : StandsFor b v) : a.le b = true ↔ u ≤ v := by
  rw [← not_lt, ← StandsFor.lt_iff hb ha]
  cases ha with
  | zero =>
    cases hb with
    | zero | finite => exact iff_of_true rfl fun h => nomatch h
  | @finite m e =>
    cases hb with
    | zero => exact iff_of_false (fun h => nomatch h) (not_not.mpr rfl)
    | @finite n f =>
      have hswap : (compare f e).then (compare n m)
          = ((compare e f).then (compare m n)).swap := by
        rw [Ordering.swap_then, ← Std.OrientedCmp.eq_swap, ← Std.OrientedCmp.eq_swap]
      show ((compare e f).then (compare m n)).isLE = true
        ↔ ¬(some ((compare f e).then (compare n m)) == some Ordering.lt) = true
      rw [hswap]
      cases (compare e f).then (compare m n) <;> decide

theorem not_zero_lt_neg (ha : StandsFor a u) (sign : Sign) : ¬(UnpackedFloat.zero sign).lt a.neg := by
  cases ha with
  | zero | finite => exact fun h => nomatch h

end StandsFor

namespace HasValue

variable {x y : Float} {u v : ℚ}

theorem neg_neg (hx : HasValue x u) : HasValue (- -x) u := by
  unfold HasValue at hx ⊢
  rw [unpack_neg, unpack_neg]
  exact hx.neg_neg

theorem neg_lt_neg_iff (hx : HasValue x u) (hy : HasValue y v) : -x < -y ↔ v < u := by
  rw [lt_iff_unpack, unpack_neg, unpack_neg, StandsFor.lt_neg hx hy]
  exact StandsFor.lt_iff hy hx

theorem neg_lt_zero_iff (hx : HasValue x u) : -x < 0 ↔ 0 < u := by
  rw [lt_iff_unpack, unpack_neg, unpack_zero]
  exact StandsFor.neg_lt_zero_iff hx _

theorem not_zero_lt_neg (hx : HasValue x u) : ¬0 < -x := by
  rw [lt_iff_unpack, unpack_neg, unpack_zero]
  exact StandsFor.not_zero_lt_neg hx _

end HasValue

/-! ## The least whole number not below -/

/-- A whole number below 52 bits stays the whole part of itself when it is rounded. -/
theorem IsRounded.floor_eq {n : Nat} {w : ℚ} (h : IsRounded n w) (hn : n < 2 ^ 52) : ⌊w⌋₊ = n := by
  obtain ⟨step, m, -, hstep, rfl, hle, hlt⟩ := h
  have hnegative : step < 0 := by
    rcases hstep with rfl | hstep
    · decide
    · have hpower : (2 : ℚ) ^ (step + 52) < 2 ^ (52 : Int) :=
        hstep.trans_lt (by exact_mod_cast hn)
      have := (zpow_lt_zpow_iff_right₀ (by norm_num : (1 : ℚ) < 2)).mp hpower
      omega
  obtain ⟨k, rfl⟩ : ∃ k : Nat, step = -(k + 1 : Nat) := ⟨(-step - 1).toNat, by omega⟩
  have hpos : (0 : ℚ) < 2 ^ (k + 1) := by positivity
  have hone : (1 : ℚ) < 2 ^ (k + 1) := one_lt_pow₀ (by norm_num) (by omega)
  rw [zpow_neg, zpow_natCast, ← div_eq_mul_inv] at hle hlt ⊢
  rw [lt_div_iff₀ hpos] at hlt
  have hm : (n : ℚ) * 2 ^ (k + 1) ≤ m := by exact_mod_cast Nat.lt_succ_iff.mp (by exact_mod_cast hlt)
  rw [Nat.floor_eq_iff (by positivity), le_div_iff₀ hpos, div_lt_iff₀ hpos]
  refine ⟨hm, ?_⟩
  rw [inv_eq_one_div, ← sub_le_iff_le_add, div_sub_div_same, div_le_iff₀ hpos] at hle
  linarith

namespace HasValue

variable {x : Float} {v : ℚ}

/-- A large double has no room for its last bits. -/
theorem exists_eq_mul_two_pow (h : HasValue x v) {k : Nat} (hlarge : 2 ^ (52 + k) ≤ v) :
    ∃ n : Nat, v = (n * 2 ^ k : Nat) := by
  unfold HasValue at h
  generalize x.toModel.unpack = a at h
  cases h with
  | zero => exact absurd hlarge (not_le.mpr (by positivity))
  | @finite m e canonical h =>
    have hlt : (m : ℚ) < (2 ^ 53 : Nat) := by exact_mod_cast canonical.lt
    have hexponent : (k : Int) ≤ e := by
      by_contra hnot
      have hbelow : (m : ℚ) * 2 ^ e < 2 ^ (52 + k) :=
        calc (m : ℚ) * 2 ^ e < (2 ^ 53 : Nat) * 2 ^ e := by gcongr
          _ ≤ (2 ^ 53 : Nat) * 2 ^ ((k : Int) - 1) := by
            gcongr
            · norm_num
            · omega
          _ = 2 ^ (52 + k) := by
            rw [zpow_sub₀ (by norm_num), zpow_natCast, pow_add]
            norm_num
            ring
      exact hbelow.not_ge hlarge
    obtain ⟨rest, rfl⟩ := Int.exists_add_of_le hexponent
    refine ⟨m * 2 ^ rest, ?_⟩
    rw [zpow_add₀ (by norm_num), zpow_natCast, zpow_natCast]
    push_cast
    ring

/-- A double that has no room for bits behind the point is whole. -/
theorem floor_eq (h : HasValue x v) (hlarge : 2 ^ 52 ≤ v) : (⌊v⌋₊ : ℚ) = v := by
  obtain ⟨n, rfl⟩ := h.exists_eq_mul_two_pow (show 2 ^ (52 + 0) ≤ v from hlarge)
  rw [Nat.floor_natCast]

/-- One more than the whole part of a double below 52 bits. -/
theorem exists_cut_add_one (h : HasValue x v) (hlt : v < 2 ^ 52) :
    ∃ w, HasValue (x.toUInt64.toFloat + 1) w ∧ ⌊w⌋₊ = ⌊v⌋₊ + 1 := by
  have hfloor : ⌊v⌋₊ < 2 ^ 52 := by
    rw [Nat.floor_lt h.nonneg]
    exact_mod_cast hlt
  rcases Nat.lt_or_eq_of_le (Nat.succ_le_of_lt hfloor) with hfits | hlast
  · have hbound : (⌊v⌋₊ : ℚ) + 1 < 2 ^ 200 := by
      have hcast : ((⌊v⌋₊ + 1 : Nat) : ℚ) < (2 ^ 52 : Nat) := by exact_mod_cast hfits
      push_cast at hcast
      linarith
    obtain ⟨w, hround, hw⟩ := ((h.cut hlt).add hasValue_one).exists_hasValue hbound
    refine ⟨w, hw, IsRounded.floor_eq ?_ hfits⟩
    rw [Nat.cast_succ]
    exact hround
  · -- the greatest whole part of all, from which rounding could go on
    have hcount : x.toUInt64 = UInt64.ofNat (2 ^ 52 - 1) := by
      rw [← UInt64.ofNat_toNat (x := x.toUInt64)]
      congr 1
      exact (h.toNat_of_lt (hlt.trans (by norm_num))).trans (by omega)
    have hsum : x.toUInt64.toFloat + 1 = Scalar.ofNat (2 ^ 52) := by
      rw [hcount]
      decide +kernel
    refine ⟨(2 ^ 52 : Nat), ?_, ?_⟩
    · rw [hsum]
      exact hasValue_ofNat (by decide)
    · rw [Nat.floor_natCast, ← hlast]

/-- The least whole number that is not below a double is counted, as far as a word can count. -/
theorem toNat_ceil (h : HasValue x v) (hlt : v < 2 ^ 64) : Scalar.toNat (Scalar.ceil x) = ⌈v⌉₊ := by
  have hceil : Scalar.ceil x = -Scalar.floorOf 0 1 (UInt64.ofNat (Nat.pow 2 52)).toFloat
    (fun x => x.toUInt64.toFloat) (-x) := rfl
  have hsame := h.neg_neg
  rw [hceil, Scalar.floorOf, if_neg h.not_zero_lt_neg]
  rcases h.nonneg.eq_or_lt with rfl | hpos
  · rw [if_neg (fun hneg => lt_irrefl 0 (h.neg_lt_zero_iff.mp hneg)), hsame.toNat_of_lt hlt,
      Nat.floor_zero, Nat.ceil_zero]
  rw [if_pos (h.neg_lt_zero_iff.mpr hpos)]
  split
  · next hsmall =>
    replace hsmall := (hasValue_limit.neg_lt_neg_iff h).mp hsmall
    have hcut := hsame.cut hsmall
    split
    · next hpart =>
      -- one more than the whole part
      replace hpart := (hcut.lt_iff hsame).mp hpart
      obtain ⟨w, hw, hfloor⟩ := hsame.exists_cut_add_one hsmall
      have hceil : ⌈v⌉₊ = ⌊v⌋₊ + 1 := by
        rw [Nat.ceil_eq_iff (Nat.succ_ne_zero _)]
        push_cast
        exact ⟨by simpa using hpart, (Nat.lt_floor_add_one v).le⟩
      have hwlt : w < 2 ^ 64 := by
        have hle := (Nat.lt_floor_add_one w).le
        rw [hfloor] at hle
        push_cast at hle
        have := Nat.floor_le h.nonneg
        norm_num at hsmall ⊢
        linarith
      rw [hw.neg_neg.toNat_of_lt hwlt, hfloor, hceil]
    · next hwhole =>
      replace hwhole := not_lt.mp (mt (hcut.lt_iff hsame).mpr hwhole)
      have hfloor : (⌊v⌋₊ : ℚ) = v := le_antisymm (Nat.floor_le h.nonneg) hwhole
      have hbound : (⌊v⌋₊ : ℚ) < 2 ^ 64 := hfloor.trans_lt hlt
      rw [hcut.neg_neg.toNat_of_lt hbound, Nat.floor_natCast, ← hfloor, Nat.ceil_natCast,
        Nat.floor_natCast]
  · next hlarge =>
    replace hlarge := not_lt.mp (mt (hasValue_limit.neg_lt_neg_iff h).mpr hlarge)
    have hfloor := h.floor_eq hlarge
    rw [hsame.toNat_of_lt hlt]
    rw [← hfloor, Nat.floor_natCast, Nat.ceil_natCast]

end HasValue

/-! ## Measures -/

section Measures

variable {x y : Float} {v : ℚ}

theorem HasValue.not_isInfinite (h : HasValue x v) : ¬IsInfinite x := fun hinfinite => by
  unfold HasValue at h
  rw [hinfinite] at h
  cases h

theorem HasValue.isFinite (h : HasValue x v) : x.isFinite = true := by
  show x.toModel.unpack.isFinite = true
  unfold HasValue at h
  generalize x.toModel.unpack = a at h
  cases h <;> rfl

theorem HasResult.isMeasure (h : HasResult x v) : IsMeasure x :=
  h.imp (fun ⟨w, _, hw⟩ => ⟨w, hw⟩) And.left

theorem IsInfinite.add (hx : IsInfinite x) (hy : IsMeasure y) : IsInfinite (x + y) := by
  refine .ofModel_pack ?_
  rw [hx]
  rcases hy with ⟨v, hy⟩ | hy
  · exact StandsFor.infinity_add hy
  · rw [hy]
    rfl

theorem IsMeasure.add_infinite (hx : IsMeasure x) (hy : IsInfinite y) : IsInfinite (x + y) :=
  hx.elim (fun ⟨_, hx⟩ => hx.add_infinite hy) fun hx => hx.add (.inr hy)

theorem IsMeasure.add (hx : IsMeasure x) (hy : IsMeasure y) : IsMeasure (x + y) := by
  rcases hy with ⟨v, hy⟩ | hy
  · rcases hx with ⟨u, hx⟩ | hx
    · exact (hx.add hy).isMeasure
    · exact .inr (hx.add (.inl ⟨v, hy⟩))
  · exact .inr (hx.add_infinite hy)

theorem IsMeasure.mul (hx : IsMeasure x) (hy : HasValue y v) (hv : 0 < v) : IsMeasure (x * y) := by
  rcases hx with ⟨u, hx⟩ | hx
  · exact (hx.mul hy).isMeasure
  · exact .inr (hx.mul hy hv)

theorem IsMeasure.div (hx : IsMeasure x) (hy : HasValue y v) (hv : 0 < v) : IsMeasure (x / y) := by
  rcases hx with ⟨u, hx⟩ | hx
  · exact (hx.div hy hv).isMeasure
  · exact .inr (hx.div hy hv)

theorem IsNaN.not_isFinite (h : IsNaN x) : ¬x.isFinite = true := by
  show ¬x.toModel.unpack.isFinite = true
  rw [h]
  exact Bool.false_ne_true

/-- A finite product of a measure and a number is a number. -/
theorem IsMeasure.exists_hasValue_mul (hx : IsMeasure x) (hy : HasValue y v)
    (hfinite : (x * y).isFinite = true) : ∃ w, HasValue (x * y) w := by
  rcases hx with ⟨u, hx⟩ | hx
  · exact (hx.mul hy).isMeasure.resolve_right fun hinfinite => hinfinite.not_isFinite hfinite
  · rcases hy.nonneg.eq_or_lt with hzero | hv
    · have hnan : IsNaN (x * y) :=
        .ofModel_pack (hx.symm ▸ StandsFor.infinity_mul_zero hy hzero.symm)
      exact absurd hfinite hnan.not_isFinite
    · exact absurd hfinite (hx.mul hy hv).not_isFinite

theorem HasValue.le_iff {u : ℚ} (hx : HasValue x u) (hy : HasValue y v) : x ≤ y ↔ u ≤ v :=
  le_iff_unpack.trans (StandsFor.le_iff hx hy)

/-- What is not below zero is not smaller than zero, unless it is not a number. -/
theorem isNaN_or_zero_le (h : ¬x < 0) : IsNaN x ∨ 0 ≤ x := by
  rw [lt_iff_unpack, unpack_zero] at h
  rw [le_iff_unpack, unpack_zero]
  unfold IsNaN
  cases hx : x.toModel.unpack with
  | notANumber => exact .inl rfl
  | zero sign => exact .inr rfl
  | infinity sign | finite sign =>
    cases sign with
    | positive => exact .inr rfl
    | negative => rw [hx] at h; exact absurd rfl h

theorem HasValue.lt_infinite (hx : HasValue x v) (hy : IsInfinite y) : x < y := by
  rw [lt_iff_unpack, hy]
  exact StandsFor.lt_infinity hx

theorem IsNaN.not_gt (hx : IsNaN x) (y : Float) : ¬y < x := by
  rw [lt_iff_unpack, hx]
  cases y.toModel.unpack <;> exact Bool.false_ne_true

/-! ### Bounds -/

/-- What is left of a time that has to be above zero is a measure, beyond all numbers only if the time
was. -/
theorem orZero_cases (x : Float) :
    IsInfinite x ∧ IsInfinite (Scalar.orZero x)
      ∨ ¬IsInfinite x ∧ ∃ v, HasValue (Scalar.orZero x) v := by
  have hzero : HasValue (Scalar.ofNat 0) (0 : Nat) := hasValue_ofNat (by decide)
  unfold Scalar.orZero
  split
  · next hpos =>
    rw [← zero_eq_ofNat] at hpos
    rcases isMeasure_iff.mpr (zero_le_of_zero_lt hpos) with ⟨v, hv⟩ | hinfinite
    · exact .inr ⟨hv.not_isInfinite, v, hv⟩
    · exact .inl ⟨hinfinite, hinfinite⟩
  · next hnot => exact .inr ⟨fun hinfinite => hnot (hzero.lt_infinite hinfinite), _, hzero⟩

/-- A level that is kept between zero and one is a number between them, unless it is not a number at
all. -/
theorem clamp_cases (x : Float) :
    IsNaN x ∧ IsNaN (Scalar.clamp x (Scalar.ofNat 0) (Scalar.ofNat 1))
      ∨ ¬IsNaN x ∧ ∃ v ≤ 1, HasValue (Scalar.clamp x (Scalar.ofNat 0) (Scalar.ofNat 1)) v := by
  have hzero : HasValue (Scalar.ofNat 0) (0 : Nat) := hasValue_ofNat (by decide)
  have hone : HasValue (Scalar.ofNat 1) (1 : Nat) := hasValue_ofNat (by decide)
  unfold Scalar.clamp
  split
  · next hlow => exact .inr ⟨fun hnan => hnan.not_lt _ hlow, _, by norm_num, hzero⟩
  split
  · next hhigh => exact .inr ⟨fun hnan => hnan.not_gt _ hhigh, _, by norm_num, hone⟩
  next hlow hhigh =>
  rw [← zero_eq_ofNat] at hlow
  rcases isNaN_or_zero_le hlow with hnan | hle
  · exact .inl ⟨hnan, hnan⟩
  rcases isMeasure_iff.mpr hle with ⟨v, hv⟩ | hinfinite
  · have hle : v ≤ (1 : Nat) := not_lt.mp (mt (hone.lt_iff hv).mpr hhigh)
    refine .inr ⟨fun hnan => ?_, v, by exact_mod_cast hle, hv⟩
    unfold HasValue at hv
    rw [hnan] at hv
    cases hv
  · exact absurd (hone.lt_infinite hinfinite) hhigh

/-! ### Counts -/

theorem toNat_ofNatClamp (n : Nat) : (UInt64.ofNatClamp n).toNat = min n (2 ^ 64 - 1) := by
  unfold UInt64.ofNatClamp
  split
  · next hlt => exact (Nat.min_eq_left (Nat.le_sub_one_of_lt hlt)).symm
  · next hge => exact (Nat.min_eq_right ((Nat.sub_le _ 1).trans (Nat.not_lt.mp hge))).symm

/-- A word counts the whole part of a number that it has room for, and then it is not full; a larger
number fills it. -/
theorem HasValue.toNat_cases (h : HasValue x v) :
    v < 2 ^ 64 ∧ Scalar.toNat x = ⌊v⌋₊ ∧ Scalar.toNat x ≠ 2 ^ 64 - 1
      ∨ 2 ^ 64 ≤ v ∧ Scalar.toNat x = 2 ^ 64 - 1 := by
  rcases lt_or_ge v (2 ^ 64) with hlt | hge
  · refine .inl ⟨hlt, h.toNat_of_lt hlt, ?_⟩
    rw [h.toNat_of_lt hlt]
    intro hfull
    have hlarge : (2 : ℚ) ^ (52 + 1) ≤ v :=
      calc (2 : ℚ) ^ (52 + 1) ≤ (2 ^ 64 - 1 : Nat) := by norm_num
        _ = (⌊v⌋₊ : ℚ) := by rw [hfull]
        _ ≤ v := Nat.floor_le h.nonneg
    -- such a number is even
    obtain ⟨n, rfl⟩ := h.exists_eq_mul_two_pow hlarge
    rw [Nat.floor_natCast] at hfull
    omega
  · have hfloor : 2 ^ 64 ≤ ⌊v⌋₊ := Nat.le_floor (by exact_mod_cast hge)
    refine .inr ⟨hge, ?_⟩
    show (UInt64.ofNatClamp (x.toModel.unpack.toInt 0 (UInt64.size - 1)).toNat).toNat = _
    rw [StandsFor.toInt h, Int.toNat_natCast, toNat_ofNatClamp]
    exact Nat.min_eq_right ((Nat.sub_le _ 1).trans hfloor)

/-- What is beyond all numbers is counted as far as a word can. -/
theorem IsInfinite.toNat (h : IsInfinite x) : Scalar.toNat x = 2 ^ 64 - 1 := by
  show (UInt64.ofNatClamp (x.toModel.unpack.toInt 0 (UInt64.size - 1)).toNat).toNat = _
  rw [h, toNat_ofNatClamp]
  rfl

end Measures

end Stave
