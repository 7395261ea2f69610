import Mathlib.Tactic.Linarith
import Stave.Proofs.Sound.Rationals
import Stave.Sound.Envelope

/-!
# The shape of an envelope

Read over the rational numbers, an envelope keeps the loudness of a note between silence and full level,
whatever a song sets for it and however short its phases are.  Each phase is left out where it has no
length, so that nothing is divided by zero.  A note that is let go begins to fall at the level that it
has reached, falls until it is silent, and is silent from then on.
-/

namespace Stave.Envelope

/-- What is asked of an envelope: its phases have no negative length, and notes are held at a level
between silence and full level. -/
structure IsShaped (e : Envelope ℚ) : Prop where
  attack_nonneg : 0 ≤ e.attack
  decay_nonneg : 0 ≤ e.decay
  sustain_nonneg : 0 ≤ e.sustain
  sustain_le_one : e.sustain ≤ 1
  release_nonneg : 0 ≤ e.release

variable {e : Envelope ℚ}

theorem nonneg_of_set {standard : ℚ} (h : 0 ≤ standard) (setting : Option ℚ) :
    0 ≤ (setting.map Scalar.orZero).getD standard := by
  cases setting with
  | none => exact h
  | some x => simp

/-- An envelope keeps its shape, whatever is set for it. -/
theorem IsShaped.override (h : e.IsShaped) (attack decay sustain release : Option ℚ) :
    (e.override attack decay sustain release).IsShaped where
  attack_nonneg := nonneg_of_set h.attack_nonneg attack
  decay_nonneg := nonneg_of_set h.decay_nonneg decay
  release_nonneg := nonneg_of_set h.release_nonneg release
  sustain_nonneg := by
    cases sustain with
    | none => exact h.sustain_nonneg
    | some x => simp [Envelope.override, Scalar.clamp_rat]
  sustain_le_one := by
    cases sustain with
    | none => exact h.sustain_le_one
    | some x => simp [Envelope.override, Scalar.clamp_rat]

/-! ## Held notes -/

theorem held_of_lt_attack {t : ℚ} (h : t < e.attack) : e.held t = t / e.attack := if_pos h

theorem held_of_lt_decay {t : ℚ} (h : e.attack ≤ t) (h' : t < e.attack + e.decay) :
    e.held t = 1 - (t - e.attack) / e.decay * (1 - e.sustain) := by
  rw [held, if_neg (not_lt.mpr h), if_pos h', Scalar.ofNat_rat, Nat.cast_one]

theorem held_of_le {t : ℚ} (h : e.attack ≤ t) (h' : e.attack + e.decay ≤ t) :
    e.held t = e.sustain := by
  rw [held, if_neg (not_lt.mpr h), if_neg (not_lt.mpr h')]

/-- The share of a phase that has gone by. -/
theorem share_mem {t length : ℚ} (h : 0 ≤ t) (h' : t < length) : 0 ≤ t / length ∧ t / length ≤ 1 :=
  ⟨div_nonneg h (h.trans h'.le), div_le_one_of_le₀ h'.le (h.trans h'.le)⟩

theorem IsShaped.held_mem (h : e.IsShaped) {t : ℚ} (ht : 0 ≤ t) : 0 ≤ e.held t ∧ e.held t ≤ 1 := by
  rcases lt_or_ge t e.attack with hattack | hattack
  · rw [held_of_lt_attack hattack]
    exact share_mem ht hattack
  · rcases lt_or_ge t (e.attack + e.decay) with hdecay | hdecay
    · rw [held_of_lt_decay hattack hdecay]
      have hbegun : 0 ≤ t - e.attack := by linarith
      have hfalling : t - e.attack < e.decay := by linarith
      obtain ⟨hlow, hhigh⟩ := share_mem hbegun hfalling
      -- the fall is a share of the way from full level to the sustained one
      have hfall : (t - e.attack) / e.decay * (1 - e.sustain) ≤ 1 - e.sustain :=
        mul_le_of_le_one_left (sub_nonneg.mpr h.sustain_le_one) hhigh
      have hnonneg := mul_nonneg hlow (sub_nonneg.mpr h.sustain_le_one)
      constructor
      · linarith [h.sustain_nonneg]
      · linarith
    · rw [held_of_le hattack hdecay]
      exact ⟨h.sustain_nonneg, h.sustain_le_one⟩

/-! ## Notes that are let go -/

theorem amplitude_of_neg {t : ℚ} (h : t < 0) (d : ℚ) : e.amplitude d t = 0 := by
  rw [amplitude, Scalar.ofNat_rat, Nat.cast_zero, if_pos h]

theorem amplitude_of_lt {d t : ℚ} (h : 0 ≤ t) (h' : t < d) : e.amplitude d t = e.held t := by
  rw [amplitude, Scalar.ofNat_rat, Nat.cast_zero, if_neg (not_lt.mpr h), if_pos h']

theorem amplitude_of_released {d t : ℚ} (hd : 0 ≤ d) (h : d ≤ t) (h' : t < d + e.release) :
    e.amplitude d t = e.held d * (1 - (t - d) / e.release) := by
  have hsounds : ¬e.release ≤ t - d := by linarith
  rw [amplitude, Scalar.ofNat_rat, Scalar.ofNat_rat, Nat.cast_zero, Nat.cast_one,
    if_neg (not_lt.mpr (hd.trans h)), if_neg (not_lt.mpr h), if_neg hsounds]

theorem amplitude_of_over {d t : ℚ} (h : d ≤ t) (h' : e.release ≤ t - d) : e.amplitude d t = 0 := by
  rw [amplitude, Scalar.ofNat_rat, Nat.cast_zero, if_neg (not_lt.mpr h), if_pos h', ite_self]

theorem IsShaped.amplitude_of_length_le (h : e.IsShaped) {d t : ℚ} (ht : e.length d ≤ t) :
    e.amplitude d t = 0 := by
  have hend : d + e.release ≤ t := ht
  exact amplitude_of_over (by linarith [h.release_nonneg]) (by linarith)

/-- A note is let go at the level that it has reached. -/
theorem amplitude_self {d : ℚ} (hd : 0 ≤ d) (h : 0 < e.release) : e.amplitude d d = e.held d := by
  rw [amplitude_of_released hd (le_refl d) (by linarith), sub_self, zero_div, sub_zero, mul_one]

theorem IsShaped.antitoneOn_amplitude (h : e.IsShaped) {d : ℚ} (hd : 0 ≤ d) :
    AntitoneOn (e.amplitude d) (Set.Ico d (d + e.release)) := by
  intro s hs t ht hst
  rw [amplitude_of_released hd hs.1 hs.2, amplitude_of_released hd ht.1 ht.2]
  have hshare : (s - d) / e.release ≤ (t - d) / e.release :=
    div_le_div_of_nonneg_right (by linarith) h.release_nonneg
  exact mul_le_mul_of_nonneg_left (by linarith) (h.held_mem hd).1

theorem IsShaped.amplitude_mem (h : e.IsShaped) {d : ℚ} (hd : 0 ≤ d) (t : ℚ) :
    0 ≤ e.amplitude d t ∧ e.amplitude d t ≤ 1 := by
  rcases lt_or_ge t 0 with hbefore | hbegun
  · rw [amplitude_of_neg hbefore]
    exact ⟨le_refl 0, zero_le_one⟩
  rcases lt_or_ge t d with hheld | hreleased
  · rw [amplitude_of_lt hbegun hheld]
    exact h.held_mem hbegun
  rcases lt_or_ge t (d + e.release) with hsounds | hover
  · rw [amplitude_of_released hd hreleased hsounds]
    have hdying : 0 ≤ t - d := by linarith
    have hfading : t - d < e.release := by linarith
    obtain ⟨hlow, hhigh⟩ := share_mem hdying hfading
    obtain ⟨hnonneg, hle⟩ := h.held_mem hd
    exact ⟨mul_nonneg hnonneg (by linarith), mul_le_one₀ hle (by linarith) (by linarith)⟩
  · rw [h.amplitude_of_length_le hover]
    exact ⟨le_refl 0, zero_le_one⟩

/-! ## No quotient by zero -/

/-- The envelope in numbers that lose their value in a quotient by zero. -/
def checked (e : Envelope ℚ) : Envelope Checked :=
  ⟨.ofRat e.attack, .ofRat e.decay, .ofRat e.sustain, .ofRat e.release⟩

theorem held_checked {t : ℚ} (h : 0 ≤ t) : e.checked.held (.ofRat t) = .ofRat (e.held t) := by
  rw [held, checked, Checked.ofRat_add, Checked.ofNat_eq, Checked.ofRat_sub, Checked.ofRat_sub]
  simp only [Checked.ofRat_lt_iff]
  rcases lt_or_ge t e.attack with hattack | hattack
  · rw [if_pos hattack, held_of_lt_attack hattack, Checked.ofRat_div t (h.trans_lt hattack).ne']
  · rw [if_neg (not_lt.mpr hattack)]
    rcases lt_or_ge t (e.attack + e.decay) with hdecay | hdecay
    · have hlength : e.decay ≠ 0 := by
        intro hnone
        linarith
      rw [if_pos hdecay, held_of_lt_decay hattack hdecay, Checked.ofRat_div _ hlength,
        Checked.ofRat_mul, Checked.ofRat_sub, Nat.cast_one]
    · rw [if_neg (not_lt.mpr hdecay), held_of_le hattack hdecay]

/-- No quotient by zero is part of an amplitude. -/
theorem amplitude_checked {d : ℚ} (hd : 0 ≤ d) (t : ℚ) :
    e.checked.amplitude (.ofRat d) (.ofRat t) = .ofRat (e.amplitude d t) := by
  have hrelease : e.checked.release = .ofRat e.release := rfl
  rw [amplitude, held_checked hd, hrelease, Checked.ofNat_eq, Checked.ofNat_eq, Checked.ofRat_sub]
  simp only [Checked.ofRat_lt_iff, Checked.ofRat_le_iff, Nat.cast_zero, Nat.cast_one]
  rcases lt_or_ge t 0 with hbefore | hbegun
  · rw [if_pos hbefore, amplitude_of_neg hbefore]
  rw [if_neg (not_lt.mpr hbegun)]
  rcases lt_or_ge t d with hheld | hreleased
  · rw [if_pos hheld, held_checked hbegun, amplitude_of_lt hbegun hheld]
  rw [if_neg (not_lt.mpr hreleased)]
  rcases le_or_gt e.release (t - d) with hover | hsounds
  · rw [if_pos hover, amplitude_of_over hreleased hover]
  · have hlength : e.release ≠ 0 := by
      intro hnone
      linarith
    rw [if_neg (not_le.mpr hsounds), amplitude_of_released hd hreleased (by linarith),
      Checked.ofRat_div _ hlength, Checked.ofRat_sub, Checked.ofRat_mul]

/-! ## Every envelope -/

/-- Whatever a song sets for an envelope with a shape, its amplitude is a level between silence and full
loudness that no quotient by zero is part of; it is silent before the note and from its end on, and
behind the time of letting go it never rises from the level that was held then. -/
theorem amplitude_of_override (h : e.IsShaped) (attack decay sustain release : Option ℚ) {d : ℚ}
    (hd : 0 ≤ d) (t : ℚ) :
    let set := e.override attack decay sustain release
    (0 ≤ set.amplitude d t ∧ set.amplitude d t ≤ 1)
      ∧ set.checked.amplitude (.ofRat d) (.ofRat t) = .ofRat (set.amplitude d t)
      ∧ (t < 0 → set.amplitude d t = 0)
      ∧ (set.length d ≤ t → set.amplitude d t = 0)
      ∧ AntitoneOn (set.amplitude d) (Set.Ico d (d + set.release))
      ∧ (0 < set.release → set.amplitude d d = set.held d) := by
  intro set
  have hset : set.IsShaped := h.override attack decay sustain release
  exact ⟨hset.amplitude_mem hd t, amplitude_checked hd t, fun hbefore => amplitude_of_neg hbefore d,
    fun hover => hset.amplitude_of_length_le hover, hset.antitoneOn_amplitude hd,
    fun hlength => amplitude_self hd hlength⟩

/-- A note that is let go in the middle of its attack, before a decay without length. -/
theorem amplitude_of_override_of_short_note :
    let e : Envelope ℚ := ⟨1 / 100, 1 / 20, 7 / 10, 1 / 10⟩
    let set := e.override (some (1 / 5)) (some 0) (some (17 / 10)) none
    (e.IsShaped ∧ (0 : ℚ) ≤ 1 / 10)
      ∧ set.checked.amplitude (.ofRat (1 / 10)) (.ofRat (3 / 20)) = .ofRat (1 / 4)
      ∧ set.amplitude (1 / 10) (1 / 10) = 1 / 2
      ∧ set.amplitude (1 / 10) (1 / 5) = 0 := by
  intro e set
  have hshaped : e.IsShaped := by constructor <;> norm_num [e]
  have hlength : (0 : ℚ) ≤ 1 / 10 := by norm_num
  have hall := amplitude_of_override hshaped (some (1 / 5)) (some 0) (some (17 / 10)) none hlength
  obtain ⟨-, hchecked, -⟩ := hall (3 / 20)
  obtain ⟨-, -, -, hover, -, hstart⟩ := hall (1 / 5)
  have hpart : set.amplitude (1 / 10) (3 / 20) = 1 / 4 := by decide +kernel
  have hreached : set.held (1 / 10) = 1 / 2 := by decide +kernel
  exact ⟨⟨hshaped, hlength⟩, hpart ▸ hchecked, (hstart (by decide +kernel)).trans hreached,
    hover (by decide +kernel)⟩

end Stave.Envelope
