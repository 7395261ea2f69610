import Stave.Proofs.Song.Pieces

/-!
# Patterns that fill their section

What is missing from a pattern is counted in whole beats, from the length of the section and that of
the pattern, both rounded up.  A pattern of whole beats is filled up exactly.  Any other stays behind
by what it lacks of the last beat it has begun, however long the section is.
-/

namespace Stave

namespace Ticks

/-- What a length lacks of a whole number of beats. -/
def lack (t : Ticks) : Nat := t.wholeBeats * perBeat - t.toNat

theorem toNat_add_lack (t : Ticks) : t.toNat + t.lack = t.wholeBeats * perBeat := by
  rw [lack, wholeBeats, perBeat]
  omega

theorem lack_lt (t : Ticks) : t.lack < perBeat := by
  rw [lack, wholeBeats, perBeat]
  omega

theorem lack_eq_zero_iff {t : Ticks} : t.lack = 0 ↔ t.IsWhole := by
  have hsum := t.toNat_add_lack
  have hlt := t.lack_lt
  rw [IsWhole]
  rw [wholeBeats, perBeat] at hsum
  rw [perBeat] at hlt ⊢
  omega

theorem wholeBeats_mono {a b : Ticks} (hle : a ≤ b) : a.wholeBeats ≤ b.wholeBeats := by
  have hle' := le_iff_toNat_le.mp hle
  rw [wholeBeats, wholeBeats]
  exact Nat.div_le_div_right (by omega)

/-- The beats that are missing make a length up to a whole number of beats, less what it lacks. -/
theorem toNat_add_ofBeats_missing {a b : Ticks} (hb : b.IsWhole) (hle : a ≤ b) :
    (a + ofBeats (b.wholeBeats - a.wholeBeats)).toNat + a.lack = b.toNat := by
  have hmissing : a.toNat + (b.wholeBeats - a.wholeBeats) * perBeat + a.lack = b.toNat := by
    have hcovered := Nat.mul_le_mul_right perBeat (wholeBeats_mono hle)
    have hlack := a.toNat_add_lack
    rw [Nat.sub_mul]
    rw [wholeBeats_mul hb] at hcovered ⊢
    omega
  have hbound := b.toNat_lt
  rw [ofBeats, toNat_add, toNat_ofNat_of_lt (by omega), Nat.mod_eq_of_lt (by omega), hmissing]

end Ticks

namespace Song

/-- In a section of whole beats a pattern that closes its brackets is filled up to the end of the
section exactly when it takes whole beats itself.  Any other is left short by what it lacks of a whole
number of beats, which is less than a beat. -/
theorem lengthOf_fill_eq_iff {pattern : List Char} (htrimmed : Text.trim pattern = pattern)
    (hclosed : closesBrackets pattern = true) {length : Ticks} (hwhole : length.IsWhole)
    (hle : lengthOf pattern ≤ length) :
    (lengthOf (fill pattern length) = length ↔ (lengthOf pattern).IsWhole)
      ∧ (lengthOf (fill pattern length)).toNat + (lengthOf pattern).lack = length.toNat
      ∧ (lengthOf pattern).lack < Ticks.perBeat := by
  have hshort : (lengthOf (fill pattern length)).toNat + (lengthOf pattern).lack = length.toNat := by
    rw [lengthOf_fill htrimmed hclosed]
    exact Ticks.toNat_add_ofBeats_missing hwhole hle
  refine ⟨?_, hshort, Ticks.lack_lt _⟩
  rw [← Ticks.lack_eq_zero_iff]
  constructor
  · intro hfilled
    rw [hfilled] at hshort
    omega
  · intro hnone
    rw [hnone] at hshort
    exact Ticks.toNat_injective hshort

/-- A chain that ends on a hold rings for one more beat, and so takes whole beats where the dotted
chord does not. -/
theorem lengthOf_fill_eq_iff_of_chain :
    let pattern := "C4~ ~ [E4. G4]".toList
    Text.trim pattern = pattern ∧ closesBrackets pattern = true ∧ (Ticks.ofBeats 6).IsWhole
      ∧ lengthOf pattern ≤ Ticks.ofBeats 6
      ∧ lengthOf (fill pattern (Ticks.ofBeats 6)) ≠ Ticks.ofBeats 6 := by
  intro pattern
  have htrimmed : Text.trim pattern = pattern := by decide +kernel
  have hclosed : closesBrackets pattern = true := by decide +kernel
  have hwhole : (Ticks.ofBeats 6).IsWhole := by decide
  have hle : lengthOf pattern ≤ Ticks.ofBeats 6 := by decide +kernel
  have hpart : ¬(lengthOf pattern).IsWhole := by decide +kernel
  exact ⟨htrimmed, hclosed, hwhole, hle,
    mt (lengthOf_fill_eq_iff htrimmed hclosed hwhole hle).1.mp hpart⟩

/-- A dotted note takes a beat and a half of two, and no rest is put behind it. -/
theorem dotted_note_is_left_short :
    let pattern := "C4.".toList
    Text.trim pattern = pattern ∧ closesBrackets pattern = true ∧ (Ticks.ofBeats 2).IsWhole
      ∧ lengthOf pattern ≤ Ticks.ofBeats 2
      ∧ fill pattern (Ticks.ofBeats 2) = pattern
      ∧ lengthOf (fill pattern (Ticks.ofBeats 2)) ≠ Ticks.ofBeats 2 := by
  intro pattern
  refine ⟨by decide +kernel, by decide +kernel, by decide, by decide +kernel, by decide +kernel, ?_⟩
  decide +kernel

end Song

end Stave
