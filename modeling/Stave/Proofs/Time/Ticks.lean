import Mathlib.Algebra.BigOperators.Group.List.Basic
import Mathlib.Algebra.GroupWithZero.Nat
import Stave.Time.Ticks

/-!
# The arithmetic of ticks

Every operation on ticks is read off the natural numbers that they count: sums up to `2 ^ 64`,
differences stopping at zero.  Sums of lengths are sums in a commutative monoid with cancellation, so
that they may be regrouped even where a word wraps around.  The longest of some lengths is one of them
that none exceeds.
-/

namespace Stave.Ticks

/-! ## Counting -/

theorem toNat_lt (t : Ticks) : t.toNat < 2 ^ 64 := t.count.toNat_lt

theorem toNat_injective : Function.Injective toNat := fun a b h => by
  cases a; cases b
  exact congrArg Ticks.mk (UInt64.toNat_inj.mp h)

theorem toNat_ofNat (n : Nat) : (ofNat n).toNat = n % 2 ^ 64 := UInt64.toNat_ofNat'

theorem toNat_ofNat_of_lt {n : Nat} (h : n < 2 ^ 64) : (ofNat n).toNat = n := by
  rw [toNat_ofNat, Nat.mod_eq_of_lt h]

@[simp]
theorem toNat_zero : zero.toNat = 0 := rfl

theorem toNat_add (a b : Ticks) : (a + b).toNat = (a.toNat + b.toNat) % 2 ^ 64 :=
  UInt64.toNat_add a.count b.count

theorem toNat_add_ofNat_le (t : Ticks) (n : Nat) : (t + ofNat n).toNat ≤ t.toNat + n := by
  rw [toNat_add, toNat_ofNat]
  exact Nat.le_trans (Nat.mod_le _ _) (Nat.add_le_add_left (Nat.mod_le _ _) _)

theorem toNat_sub (a b : Ticks) : (a - b).toNat = a.toNat - b.toNat :=
  toNat_ofNat_of_lt (Nat.lt_of_le_of_lt (Nat.sub_le _ _) a.toNat_lt)

theorem lt_iff_toNat_lt {a b : Ticks} : a < b ↔ a.toNat < b.toNat := UInt64.lt_iff_toNat_lt

theorem le_iff_toNat_le {a b : Ticks} : a ≤ b ↔ a.toNat ≤ b.toNat := UInt64.le_iff_toNat_le

theorem not_lt {a b : Ticks} : ¬ a < b ↔ b ≤ a := by
  rw [lt_iff_toNat_lt, le_iff_toNat_le, Nat.not_lt]

/-- Wrapping into a loop that has a length leaves the remainder. -/
theorem toNat_wrap {t length : Ticks} (h : zero < length) :
    (t.wrap length).toNat = t.toNat % length.toNat := by
  have hne : length.count ≠ 0 := by
    intro hzero
    rw [lt_iff_toNat_lt, toNat_zero, toNat, hzero] at h
    exact Nat.lt_irrefl 0 h
  rw [wrap, if_neg hne]
  exact UInt64.toNat_mod t.count length.count

/-! ## Sums -/

instance : Zero Ticks := ⟨zero⟩

theorem zero_eq : (0 : Ticks) = zero := rfl

instance : AddCancelCommMonoid Ticks where
  add_assoc a b c := congrArg Ticks.mk (UInt64.add_assoc a.count b.count c.count)
  zero_add a := congrArg Ticks.mk (UInt64.zero_add a.count)
  add_zero a := congrArg Ticks.mk (UInt64.add_zero a.count)
  add_comm a b := congrArg Ticks.mk (UInt64.add_comm a.count b.count)
  add_left_cancel a b c h := congrArg Ticks.mk <|
    (UInt64.add_right_inj a.count).mp (congrArg Ticks.count h)
  nsmul := nsmulRec

@[simp]
theorem ofNat_zero : ofNat 0 = 0 := rfl

/-- Counting is additive, also beyond what a word can hold. -/
theorem ofNat_add (m n : Nat) : ofNat (m + n) = ofNat m + ofNat n := by
  apply toNat_injective
  rw [toNat_add, toNat_ofNat, toNat_ofNat, toNat_ofNat, Nat.add_mod]

theorem ofNat_toNat (t : Ticks) : ofNat t.toNat = t :=
  toNat_injective (toNat_ofNat_of_lt t.toNat_lt)

theorem ofNat_sum (counts : List Nat) : ofNat counts.sum = (counts.map ofNat).sum := by
  induction counts with
  | nil => rfl
  | cons n rest ih => rw [List.sum_cons, ofNat_add, ih, List.map_cons, List.sum_cons]

theorem eq_zero_of_not_pos {t : Ticks} (h : ¬ zero < t) : t = 0 := by
  rw [lt_iff_toNat_lt, toNat_zero, Nat.not_lt, Nat.le_zero] at h
  exact toNat_injective h

theorem sum_eq (lengths : List Ticks) : sum lengths = lengths.sum :=
  List.sum_eq_foldl.symm

/-! ## The longest -/

/-- Going through lengths for the longest one ends at a length that is there and that none exceeds. -/
theorem foldl_longer (lengths : List Ticks) (first : Ticks) :
    first ≤ lengths.foldl (fun a b => if a < b then b else a) first
      ∧ (∀ t ∈ lengths, t ≤ lengths.foldl (fun a b => if a < b then b else a) first)
      ∧ lengths.foldl (fun a b => if a < b then b else a) first ∈ first :: lengths := by
  induction lengths generalizing first with
  | nil => exact ⟨le_iff_toNat_le.mpr (Nat.le_refl _), by simp, by simp⟩
  | cons t rest ih =>
    rw [List.foldl_cons]
    obtain ⟨hfirst, hrest, hmem⟩ := ih (if first < t then t else first)
    -- the longer one of the first two goes on
    by_cases hlt : first < t
    · rw [if_pos hlt] at hfirst hrest hmem ⊢
      have hle : first ≤ t := by
        rw [le_iff_toNat_le]
        exact Nat.le_of_lt (lt_iff_toNat_lt.mp hlt)
      exact ⟨le_trans hle hfirst, List.forall_mem_cons.mpr ⟨hfirst, hrest⟩,
        List.mem_cons_of_mem _ hmem⟩
    · rw [if_neg hlt] at hfirst hrest hmem ⊢
      refine ⟨hfirst, List.forall_mem_cons.mpr ⟨le_trans (not_lt.mp hlt) hfirst, hrest⟩, ?_⟩
      rcases List.mem_cons.mp hmem with heq | hin
      · exact List.mem_cons.mpr (Or.inl heq)
      · exact List.mem_cons_of_mem _ (List.mem_cons_of_mem _ hin)

theorem le_maximum {t : Ticks} {lengths : List Ticks} (h : t ∈ lengths) : t ≤ maximum lengths :=
  (foldl_longer lengths zero).2.1 t h

theorem maximum_le_iff (lengths : List Ticks) (t : Ticks) :
    maximum lengths ≤ t ↔ ∀ length ∈ lengths, length ≤ t := by
  constructor
  · intro h length hlength
    exact le_trans (le_maximum hlength) h
  · intro h
    rcases List.mem_cons.mp (foldl_longer lengths zero).2.2 with hzero | hmem
    · rw [maximum, hzero, le_iff_toNat_le]
      exact Nat.zero_le _
    · exact h _ hmem

theorem maximum_congr {lengths others : List Ticks} (h : ∀ t, t ∈ lengths ↔ t ∈ others) :
    maximum lengths = maximum others := by
  have hle : ∀ t, maximum lengths ≤ t ↔ maximum others ≤ t := by
    intro t
    simp only [maximum_le_iff, h]
  have hforth := (hle (maximum others)).mpr (le_iff_toNat_le.mpr (Nat.le_refl _))
  have hback := (hle (maximum lengths)).mp (le_iff_toNat_le.mpr (Nat.le_refl _))
  rw [le_iff_toNat_le] at hforth hback
  exact toNat_injective (Nat.le_antisymm hforth hback)

end Stave.Ticks
