import Mathlib.Order.Interval.Set.UnorderedInterval
import Mathlib.Tactic.Linarith
import Mathlib.Tactic.Positivity
import Stave.Proofs.Sound.Rationals
import Stave.Sample.Resample

/-!
# The samples of a sound at another rate

Each sample of a sound at another rate is read at a place of its own.  Over the rational numbers there is
one for each place before the end of the sound, and it has the value at its place on the line between the
samples around it, so that it is never louder than they are.  A sample at a whole place is taken as it is:
the first one, all of them where the rate stays the same, and every `k`-th where it goes down to a `k`-th.

Zero stands in for a sample that is missing.  That none ever is missing shows on numbers among which this
zero has no value.
-/

namespace Stave

/-- Rational numbers without the zero that stands in for a sample where there is none.  It has no value, and
neither has what is computed from it. -/
def Sampled : Type := Checked

namespace Sampled

/-- The value of a sample. -/
def ofRat (x : ℚ) : Sampled := Checked.ofRat x

instance : Scalar Sampled :=
  { (inferInstance : Scalar Checked) with
    ofNat := fun n => if n = 0 then ⟨none⟩ else Checked.ofRat n }

theorem ofRat_line (x y share : ℚ) :
    ofRat (x * (Scalar.ofNat 1 - share) + y * share)
      = ofRat x * (Scalar.ofNat 1 - ofRat share) + ofRat y * ofRat share := rfl

end Sampled

namespace Resample

/-! ## What is read -/

section

variable {α β : Type} [Scalar α] [Scalar β] (narrow : α → β) {samples : List β}

theorem linear_eq_map (h : 2 ≤ samples.length) (source target : Nat) :
    linear narrow samples source target
      = (List.range (length samples.length (Scalar.ofNat source / Scalar.ofNat target : α))).map
          fun i => valueAt narrow samples.toArray
            (Scalar.ofNat i * (Scalar.ofNat source / Scalar.ofNat target)) := by
  have hmore : ¬samples.toArray.size < 2 := by
    rw [List.size_toArray]
    omega
  rw [linear]
  exact if_neg hmore

omit [Scalar β] in
theorem getD_toArray {i : Nat} {x : β} (h : samples[i]? = some x) (standIn : β) :
    samples.toArray.getD i standIn = x := by
  rw [Array.getD_eq_getD_getElem?, List.getElem?_toArray, h, Option.getD_some]

/-- Between two samples a sound has a value on the line from one to the other. -/
theorem valueAt_of_between {place : α} {index : Nat} {here next : β}
    (hindex : Scalar.toNat place = index) (hhere : samples[index]? = some here)
    (hnext : samples[index + 1]? = some next) :
    valueAt narrow samples.toArray place
      = here * (Scalar.ofNat 1 - narrow (place - Scalar.ofNat index))
        + next * narrow (place - Scalar.ofNat index) := by
  have hlt : index + 1 < samples.length := (List.getElem?_eq_some_iff.mp hnext).1
  have hmin : min index (samples.length - 1) = index := by omega
  have hbefore : index < samples.length - 1 := by omega
  rw [valueAt, List.size_toArray, hindex]
  simp only [hmin, if_pos hbefore, getD_toArray hhere, getD_toArray hnext]

/-- From the last sample on a sound stays as it is. -/
theorem valueAt_of_last {place : α} {last : β} (hplace : samples.length ≤ Scalar.toNat place + 1)
    (hlast : samples[samples.length - 1]? = some last) :
    valueAt narrow samples.toArray place = last := by
  have hmin : min (Scalar.toNat place) (samples.length - 1) = samples.length - 1 := by omega
  rw [valueAt, List.size_toArray]
  simp only [hmin, lt_irrefl, if_false, getD_toArray hlast]

variable {γ : Type} [Scalar γ] {f : β → γ}
  (hline : ∀ x y share, f (x * (Scalar.ofNat 1 - share) + y * share)
    = f x * (Scalar.ofNat 1 - f share) + f y * f share)

include hline

theorem valueAt_map (hsome : 0 < samples.length) (place : α) :
    valueAt (fun x => f (narrow x)) (samples.map f).toArray place
      = f (valueAt narrow samples.toArray place) := by
  have hlength : (samples.map f).length = samples.length := List.length_map f
  have hread {i : Nat} (hi : i < samples.length) :
      ∃ x, samples[i]? = some x ∧ (samples.map f)[i]? = some (f x) := by
    rw [List.getElem?_map, List.getElem?_eq_getElem hi]
    exact ⟨_, rfl, rfl⟩
  by_cases hbetween : Scalar.toNat place + 1 < samples.length
  · obtain ⟨here, hhere, hmapped⟩ := hread (Nat.lt_of_succ_lt hbetween)
    obtain ⟨next, hnext, hnextMapped⟩ := hread hbetween
    rw [valueAt_of_between narrow rfl hhere hnext, valueAt_of_between _ rfl hmapped hnextMapped, hline]
  · obtain ⟨last, hlast, hmapped⟩ := hread (Nat.sub_one_lt_of_lt hsome)
    have hbehind : samples.length ≤ Scalar.toNat place + 1 := Nat.le_of_not_lt hbetween
    rw [← hlength] at hmapped
    rw [valueAt_of_last narrow hbehind hlast, valueAt_of_last _ (hlength.trans_le hbehind) hmapped]

/-- What is made of the samples of a sound by a rule that keeps lines is made of its samples at another
rate.  The rule need not keep the zero that stands in for a sample, because none is missing. -/
theorem linear_map (h : 2 ≤ samples.length) (source target : Nat) :
    linear (fun x => f (narrow x)) (samples.map f) source target
      = (linear narrow samples source target).map f := by
  have hmap : 2 ≤ (samples.map f).length := h.trans_eq (List.length_map f).symm
  have hsome : 0 < samples.length := Nat.zero_lt_of_lt h
  simp only [linear_eq_map _ hmap, linear_eq_map _ h, List.map_map, List.length_map,
    Function.comp_def, valueAt_map narrow hline hsome]

end

/-! ## Places -/

/-- The place in a sound of rate `source` at which its sample `i` at rate `target` is read. -/
def place (source target i : Nat) : ℚ := i * source / target

section

variable {count source target i : Nat}

theorem ofNat_mul_ratio :
    (Scalar.ofNat i * (Scalar.ofNat source / Scalar.ofNat target) : Unbounded)
      = ⟨place source target i⟩ :=
  congrArg Unbounded.mk (mul_div_assoc (i : ℚ) source target).symm

theorem place_nonneg : 0 ≤ place source target i := by
  rw [place]
  positivity

/-- How many samples there are at another rate, as long as a word counts them. -/
theorem length_rat :
    length count (Scalar.ofNat source / Scalar.ofNat target : ℚ)
      = min ⌈(count * target / source : ℚ)⌉₊ (2 ^ 64 - 1) := by
  rw [← div_div_eq_mul_div]
  exact Scalar.toNat_ceil _

theorem length_unbounded :
    length count (Scalar.ofNat source / Scalar.ofNat target : Unbounded)
      = ⌈(count * target / source : ℚ)⌉₊ := by
  rw [← div_div_eq_mul_div]
  exact Unbounded.toNat_ceil _

/-- There are as many samples as have their place before the end of the sound. -/
theorem lt_ceil_iff_place_lt (hsource : 1 ≤ source) (htarget : 1 ≤ target) :
    i < ⌈(count * target / source : ℚ)⌉₊ ↔ place source target i < count := by
  have hs : (0 : ℚ) < source := by exact_mod_cast hsource
  have ht : (0 : ℚ) < target := by exact_mod_cast htarget
  rw [Nat.lt_ceil, lt_div_iff₀ hs, place, div_lt_iff₀ ht]

end

/-! ## Between samples -/

section

variable {samples : List ℚ} {p before after : ℚ}

/-- The samples around a place: the last one that is not behind it and the one that follows.  Behind the
last sample of a sound none follows, and it stands on both sides. -/
structure IsAround (samples : List ℚ) (place before after : ℚ) : Prop where
  before_eq : samples[⌊place⌋₊]? = some before
  after_eq : samples[min (⌊place⌋₊ + 1) (samples.length - 1)]? = some after

/-- The value at a place on the line from one sample to the next. -/
def between (place before after : ℚ) : ℚ := before + (after - before) * (place - ⌊place⌋₊)

theorem between_mem (hp : 0 ≤ p) (before after : ℚ) :
    between p before after ∈ Set.uIcc before after := by
  have hlow : 0 ≤ p - ⌊p⌋₊ := sub_nonneg.mpr (Nat.floor_le hp)
  have hhigh : p - ⌊p⌋₊ ≤ 1 := by linarith [Nat.lt_floor_add_one p]
  rw [Set.mem_uIcc, between]
  rcases le_total before after with hrises | hfalls
  · have hnonneg := mul_nonneg (sub_nonneg.mpr hrises) hlow
    have hle := mul_le_of_le_one_right (sub_nonneg.mpr hrises) hhigh
    left
    constructor <;> linarith
  · have hnonneg := mul_nonneg (sub_nonneg.mpr hfalls) hlow
    have hle := mul_le_of_le_one_right (sub_nonneg.mpr hfalls) hhigh
    right
    constructor <;> linarith

/-- What is between the samples around a place has a sample on either side. -/
theorem IsAround.exists_le_and_le {value : ℚ} (h : IsAround samples p before after)
    (hvalue : value ∈ Set.uIcc before after) :
    (∃ low ∈ samples, low ≤ value) ∧ ∃ high ∈ samples, value ≤ high := by
  have hbefore : before ∈ samples := List.mem_of_getElem? h.before_eq
  have hafter : after ∈ samples := List.mem_of_getElem? h.after_eq
  rcases Set.mem_uIcc.mp hvalue with ⟨hlow, hhigh⟩ | ⟨hlow, hhigh⟩
  · exact ⟨⟨before, hbefore, hlow⟩, after, hafter, hhigh⟩
  · exact ⟨⟨after, hafter, hlow⟩, before, hbefore, hhigh⟩

/-- At a place before its end a sound has the value on the line between the samples around it. -/
theorem exists_isAround (hp : 0 ≤ p) (hend : p < samples.length) :
    ∃ before after, IsAround samples p before after
      ∧ valueAt Unbounded.value samples.toArray ⟨p⟩ = between p before after := by
  have hbefore : ⌊p⌋₊ < samples.length := (Nat.floor_lt hp).mpr hend
  have hafter : min (⌊p⌋₊ + 1) (samples.length - 1) < samples.length := by omega
  refine ⟨samples[⌊p⌋₊], samples[min (⌊p⌋₊ + 1) (samples.length - 1)],
    ⟨List.getElem?_eq_getElem hbefore, List.getElem?_eq_getElem hafter⟩, ?_⟩
  -- nothing follows the last sample, and the line stays level there
  by_cases hfollows : ⌊p⌋₊ + 1 < samples.length
  · have hmin : min (⌊p⌋₊ + 1) (samples.length - 1) = ⌊p⌋₊ + 1 := by omega
    rw [valueAt_of_between Unbounded.value (Unbounded.toNat_eq p) (List.getElem?_eq_getElem hbefore)
      (List.getElem?_eq_getElem hfollows)]
    simp only [hmin]
    show samples[⌊p⌋₊] * ((1 : Nat) - (p - ⌊p⌋₊)) + samples[⌊p⌋₊ + 1] * (p - ⌊p⌋₊) = _
    rw [between, Nat.cast_one]
    ring
  · have hlast : samples.length - 1 = ⌊p⌋₊ := by omega
    have hmin : min (⌊p⌋₊ + 1) (samples.length - 1) = ⌊p⌋₊ := by omega
    simp only [hmin]
    rw [between, sub_self, zero_mul, add_zero]
    refine valueAt_of_last Unbounded.value (Nat.le_of_not_lt hfollows) ?_
    rw [hlast]
    exact List.getElem?_eq_getElem hbefore

/-- That a count stops at the end of a word makes no difference to a value, if a word counts the samples in
front of its place. -/
theorem valueAt_rat (h : ⌊p⌋₊ < 2 ^ 64) :
    valueAt (fun x : ℚ => x) samples.toArray p = valueAt Unbounded.value samples.toArray ⟨p⟩ := by
  have hindex : Scalar.toNat p = ⌊p⌋₊ := min_eq_left (Nat.le_sub_one_of_lt h)
  simp only [valueAt, hindex, Unbounded.toNat_eq]
  rfl

end

/-! ## Another rate -/

/-- A sound of rate `source` at rate `target`, with exact numbers and with counts that have no end. -/
def exactly (samples : List ℚ) (source target : Nat) : List ℚ :=
  linear Unbounded.value samples source target

section

variable {samples : List ℚ} (hmore : 2 ≤ samples.length) {source target : Nat}

include hmore

theorem exactly_eq_map :
    exactly samples source target
      = (List.range ⌈(samples.length * target / source : ℚ)⌉₊).map fun i =>
          valueAt Unbounded.value samples.toArray ⟨place source target i⟩ := by
  simp only [exactly, linear_eq_map Unbounded.value hmore, length_unbounded, ofNat_mul_ratio]

theorem length_exactly :
    (exactly samples source target).length
      = ⌈(samples.length * target / source : ℚ)⌉₊ := by
  rw [exactly_eq_map hmore, List.length_map, List.length_range]

/-- No sample is read where there is none. -/
theorem linear_sampled :
    linear (fun x : Unbounded => Sampled.ofRat x.value) (samples.map Sampled.ofRat) source target
      = (exactly samples source target).map Sampled.ofRat :=
  linear_map Unbounded.value Sampled.ofRat_line hmore source target

variable (hsource : 1 ≤ source) (htarget : 1 ≤ target)

include hsource htarget

theorem getElem?_exactly (i : Nat) :
    (exactly samples source target)[i]?
      = if place source target i < samples.length
        then some (valueAt Unbounded.value samples.toArray ⟨place source target i⟩) else none := by
  rw [exactly_eq_map hmore, List.getElem?_map]
  split
  · next hend =>
    rw [List.getElem?_range ((lt_ceil_iff_place_lt hsource htarget).mpr hend), Option.map_some]
  · next hend =>
    rw [← lt_ceil_iff_place_lt hsource htarget, not_lt] at hend
    rw [List.getElem?_eq_none (List.length_range.trans_le hend), Option.map_none]

/-- Each sample has the value on the line between those around its place. -/
theorem exists_between_of_exactly {i : Nat} {value : ℚ}
    (h : (exactly samples source target)[i]? = some value) :
    ∃ before after, IsAround samples (place source target i) before after
      ∧ value = between (place source target i) before after ∧ value ∈ Set.uIcc before after := by
  rw [getElem?_exactly hmore hsource htarget] at h
  split at h
  · next hend =>
    obtain ⟨before, after, haround, hvalue⟩ := exists_isAround place_nonneg hend
    have hbetween := (Option.some.inj h).symm.trans hvalue
    exact ⟨before, after, haround, hbetween, hbetween ▸ between_mem place_nonneg before after⟩
  · cases h

/-- A sample at a whole place is taken as it is. -/
theorem getElem?_exactly_of_whole {i m : Nat} (h : place source target i = m) :
    (exactly samples source target)[i]? = samples[m]? := by
  rw [getElem?_exactly hmore hsource htarget, h]
  split
  · next hend =>
    obtain ⟨before, after, haround, hvalue⟩ := exists_isAround m.cast_nonneg hend
    have hbefore := haround.before_eq
    rw [Nat.floor_natCast] at hbefore
    rw [hvalue, between, Nat.floor_natCast, sub_self, mul_zero, add_zero, hbefore]
  · next hend => exact (List.getElem?_eq_none (Nat.cast_le.mp (not_lt.mp hend))).symm

/-- That counts stop at the end of a word makes no difference, if a word counts the samples. -/
theorem linear_rat (hcount : samples.length < 2 ^ 64)
    (hword : (exactly samples source target).length < 2 ^ 64) :
    linear (fun x : ℚ => x) samples source target = exactly samples source target := by
  rw [length_exactly hmore] at hword
  rw [linear_eq_map _ hmore, length_rat, Nat.min_eq_left (Nat.le_sub_one_of_lt hword),
    exactly_eq_map hmore]
  refine List.map_congr_left fun i hi => ?_
  -- places that are read are before the end, so that their whole part is a count of samples
  have hend := (lt_ceil_iff_place_lt hsource htarget).mp (List.mem_range.mp hi)
  have hindex : ⌊place source target i⌋₊ < samples.length := (Nat.floor_lt place_nonneg).mpr hend
  rw [← valueAt_rat (hindex.trans hcount), place, mul_div_assoc]
  rfl

end

/-- A sound of two samples or more goes on at another rate until its end, and what it is made of is always
there to be read.  It begins with the sample that it began with.  Each sample has the value at its place on
the line between the samples around it, so that none is below or above all samples there were.  All
samples are kept where the rate stays the same, and every `k`-th where it goes down to a `k`-th.  Nothing of
this needs counts beyond a word, if a word counts the samples before and after. -/
theorem samples_of_linear {samples : List ℚ} (hmore : 2 ≤ samples.length) {source target : Nat}
    (hsource : 1 ≤ source) (htarget : 1 ≤ target) :
    (exactly samples source target).length = ⌈(samples.length * target / source : ℚ)⌉₊
      ∧ linear (fun x : Unbounded => Sampled.ofRat x.value) (samples.map Sampled.ofRat) source target
        = (exactly samples source target).map Sampled.ofRat
      ∧ (exactly samples source target).head? = samples.head?
      ∧ (∀ i value, (exactly samples source target)[i]? = some value →
        ∃ before after, IsAround samples (place source target i) before after
          ∧ value = between (place source target i) before after ∧ value ∈ Set.uIcc before after)
      ∧ (∀ value ∈ exactly samples source target,
        (∃ low ∈ samples, low ≤ value) ∧ ∃ high ∈ samples, value ≤ high)
      ∧ (source = target → exactly samples source target = samples)
      ∧ (∀ k, source = k * target → ∀ i, (exactly samples source target)[i]? = samples[k * i]?)
      ∧ (samples.length < 2 ^ 64 → (exactly samples source target).length < 2 ^ 64 →
        linear (fun x : ℚ => x) samples source target = exactly samples source target) := by
  have hwhole {i m : Nat} (h : place source target i = m) :
      (exactly samples source target)[i]? = samples[m]? :=
    getElem?_exactly_of_whole hmore hsource htarget h
  have hrate : (target : ℚ) ≠ 0 := Nat.cast_ne_zero.mpr (Nat.ne_of_gt htarget)
  refine ⟨length_exactly hmore, linear_sampled hmore, ?_,
    fun _ _ => exists_between_of_exactly hmore hsource htarget, ?_, ?_, ?_,
    linear_rat hmore hsource htarget⟩
  · have hfirst : place source target 0 = (0 : Nat) := by rw [place, Nat.cast_zero, zero_mul, zero_div]
    rw [List.head?_eq_getElem?, List.head?_eq_getElem?]
    exact hwhole hfirst
  · intro value hvalue
    obtain ⟨i, hi⟩ := List.mem_iff_getElem?.mp hvalue
    obtain ⟨before, after, haround, -, hmem⟩ := exists_between_of_exactly hmore hsource htarget hi
    exact haround.exists_le_and_le hmem
  · rintro rfl
    refine List.ext_getElem? fun i => hwhole ?_
    rw [place, mul_div_cancel_right₀ _ hrate]
  · rintro k rfl i
    refine hwhole ?_
    rw [place, Nat.cast_mul, ← mul_assoc, mul_div_cancel_right₀ _ hrate, mul_comm, Nat.cast_mul]

/-- Three samples at a rate of two are five at a rate of three, the last one of which is read behind the last
of the three; at half the rate every second one is left. -/
theorem samples_of_linear_of_three_samples :
    let samples : List ℚ := [1, 3, 2]
    let resampled : List ℚ := [1, 7 / 3, 8 / 3, 2, 2]
    (2 ≤ samples.length ∧ 1 ≤ 2 ∧ 1 ≤ 3)
      ∧ exactly samples 2 3 = resampled
      ∧ resampled.length = ⌈(3 * 3 / 2 : ℚ)⌉₊
      ∧ linear (fun x : Unbounded => Sampled.ofRat x.value) (samples.map Sampled.ofRat) 2 3
        = resampled.map Sampled.ofRat
      ∧ (∃ before after, IsAround samples (place 2 3 4) before after
        ∧ 2 = between (place 2 3 4) before after)
      ∧ linear (fun x : ℚ => x) samples 2 3 = resampled
      ∧ ∀ i, (exactly samples 6 3)[i]? = samples[2 * i]? := by
  intro samples resampled
  have hmore : 2 ≤ samples.length := by decide
  have hread : exactly samples 2 3 = resampled := by decide +kernel
  obtain ⟨hlength, hsampled, -, hbetween, -, -, -, hword⟩ :=
    samples_of_linear hmore (by decide : 1 ≤ 2) (by decide : 1 ≤ 3)
  obtain ⟨-, -, -, -, -, -, hevery, -⟩ :=
    samples_of_linear hmore (by decide : 1 ≤ 6) (by decide : 1 ≤ 3)
  rw [hread] at hlength hsampled hword hbetween
  obtain ⟨before, after, haround, hvalue, -⟩ := hbetween 4 2 rfl
  exact ⟨⟨hmore, by decide, by decide⟩, hread, hlength, hsampled, ⟨before, after, haround, hvalue⟩,
    hword (by decide) (by decide), hevery 2 rfl⟩

end Resample

end Stave
