import Stave.Proofs.Score.Extent
import Stave.Proofs.Song.Music

/-!
# What a song plays while a section lasts

The sections of a song take up stretches of ticks, one behind the other.  What the line of a stave
plays in the stretch of a section is what the section's pattern plays by itself: no event of another
section starts there, and none of its own is missing.
-/

namespace Stave

/-- Whether an event starts in a stretch of ticks. -/
def NoteEvent.startsWithin (e : NoteEvent) (first last : Nat) : Bool :=
  decide (first ≤ e.beat.toNat) && decide (e.beat.toNat < last)

namespace Song

open Yaml TokenKind

/-- The ticks before a section, counted from the start of the song. -/
def ticksBefore (played : List Section) (n : Nat) : Nat :=
  ((played.take n).map fun s => s.length.toNat).sum

/-- The ticks of all sections. -/
def totalTicks (played : List Section) : Nat := (played.map fun s => s.length.toNat).sum

/-- The places of the sections depend on their lengths alone. -/
theorem ticksBefore_congr {played other : List Section}
    (h : other.map Section.length = played.map Section.length) (n : Nat) :
    ticksBefore other n = ticksBefore played n := by
  have hsum := congrArg (fun lengths => ((lengths.take n).map Ticks.toNat).sum) h
  simp only [← List.map_take, List.map_map] at hsum
  exact hsum

theorem totalTicks_congr {played other : List Section}
    (h : other.map Section.length = played.map Section.length) :
    totalTicks other = totalTicks played := by
  have hsum := congrArg (fun lengths => (lengths.map Ticks.toNat).sum) h
  simp only [List.map_map] at hsum
  exact hsum

/-! ## Sections -/

section OneSection

variable {s : Section} (hplain : s.IsPlain) (hfits : s.Fits) {instrument : String}
  {line lineIndex : Nat}
include hplain hfits

/-- What a section's pattern plays ends by the end of the section. -/
theorem endsBy_of_mem_eventsFor {e : NoteEvent} (he : e ∈ s.eventsFor instrument line lineIndex) :
    e.EndsBy s.length := by
  rw [Section.eventsFor] at he
  split at he
  · next pattern hpattern =>
    obtain ⟨part, hpart, hline⟩ := Option.bind_eq_some_iff.mp hpattern
    have hfit : span (kindsOf pattern.toList) < 2 ^ 64 :=
      hfits part (List.mem_of_find?_eq_some hpart) pattern (List.mem_of_getElem? hline)
    have hends := endsBy_of_mem_eventsOf hfit he
    rw [length_eventsOf] at hends
    rw [← kindsOf, ← lengthOf_eq] at hends
    exact hends.mono (hplain.pattern? hpattern).2
  · cases he

/-- What a section plays behind other sections starts in its stretch. -/
theorem startsWithin_of_mem_moved {offset : Ticks} {tokens : Nat}
    (hoffset : offset.toNat + s.length.toNat < 2 ^ 64) {e : NoteEvent}
    (he : e ∈ (s.eventsFor instrument line lineIndex).map (NoteEvent.moved offset tokens)) :
    offset.toNat ≤ e.beat.toNat ∧ e.beat.toNat < offset.toNat + s.length.toNat := by
  obtain ⟨own, hown, rfl⟩ := List.mem_map.mp he
  have hlt := Ticks.lt_iff_toNat_lt.mp (endsBy_of_mem_eventsFor hplain hfits hown).beat_lt
  have hbeat : (own.moved offset tokens).beat.toNat = own.beat.toNat + offset.toNat := by
    show (own.beat + offset).toNat = _
    rw [Ticks.toNat_add, Nat.mod_eq_of_lt (by omega)]
  omega

end OneSection

/-! ## Songs -/

section Songs

variable (instrument : String) (line lineIndex : Nat)

theorem toNat_add_length {offset : Ticks} {s : Section} {later : List Section}
    (htotal : offset.toNat + totalTicks (s :: later) < 2 ^ 64) :
    (offset + s.length).toNat = offset.toNat + s.length.toNat
      ∧ (offset + s.length).toNat + totalTicks later < 2 ^ 64 := by
  rw [totalTicks, List.map_cons, List.sum_cons] at htotal
  have hadd : (offset + s.length).toNat = offset.toNat + s.length.toNat := by
    rw [Ticks.toNat_add, Nat.mod_eq_of_lt (by omega)]
  refine ⟨hadd, ?_⟩
  rw [hadd, totalTicks]
  omega

/-- Nothing starts before the first section. -/
theorem le_beat_of_mem_placed {sections : List Section} (hplain : ∀ s ∈ sections, s.IsPlain)
    (hfits : ∀ s ∈ sections, s.Fits) {offset : Ticks} {tokens : Nat}
    (htotal : offset.toNat + totalTicks sections < 2 ^ 64) {e : NoteEvent}
    (he : e ∈ placed instrument line lineIndex offset tokens sections) :
    offset.toNat ≤ e.beat.toNat := by
  induction sections generalizing offset tokens with
  | nil => cases he
  | cons s later ih =>
    obtain ⟨hadd, hrest⟩ := toNat_add_length htotal
    rw [placed] at he
    rcases List.mem_append.mp he with hown | hlater
    · exact (startsWithin_of_mem_moved (hplain s List.mem_cons_self) (hfits s List.mem_cons_self)
        (by omega) hown).1
    · have hle := ih (fun t ht => hplain t (List.mem_cons_of_mem _ ht))
        (fun t ht => hfits t (List.mem_cons_of_mem _ ht)) hrest hlater
      omega

/-- In the stretch of a section exactly what its own pattern plays starts. -/
theorem filter_placed {sections : List Section} (hplain : ∀ s ∈ sections, s.IsPlain)
    (hfits : ∀ s ∈ sections, s.Fits) {offset : Ticks} (tokens : Nat)
    (htotal : offset.toNat + totalTicks sections < 2 ^ 64) {n : Nat} {s : Section}
    (hn : sections[n]? = some s) :
    ∃ behind,
      ((placed instrument line lineIndex offset tokens sections).filter fun e =>
          e.startsWithin (offset.toNat + ticksBefore sections n)
            (offset.toNat + ticksBefore sections n + s.length.toNat))
        = (s.eventsFor instrument line lineIndex).map
          (NoteEvent.moved (Ticks.ofNat (offset.toNat + ticksBefore sections n)) behind) := by
  induction sections generalizing offset tokens n with
  | nil => cases hn
  | cons t later ih =>
    obtain ⟨hadd, hrest⟩ := toNat_add_length htotal
    have ht := hplain t List.mem_cons_self
    have htfits := hfits t List.mem_cons_self
    have hlater : ∀ u ∈ later, u.IsPlain := fun u hu => hplain u (List.mem_cons_of_mem _ hu)
    have hlaterFits : ∀ u ∈ later, u.Fits := fun u hu => hfits u (List.mem_cons_of_mem _ hu)
    rw [placed, List.filter_append]
    cases n with
    | zero =>
      obtain rfl : t = s := by simpa using hn
      refine ⟨tokens, ?_⟩
      have hzero : ticksBefore (t :: later) 0 = 0 := rfl
      rw [hzero, Nat.add_zero, Ticks.ofNat_toNat]
      -- the whole first block, and nothing of what is behind it
      rw [List.filter_eq_self.mpr, List.filter_eq_nil_iff.mpr, List.append_nil]
      · intro e he
        have hle := le_beat_of_mem_placed instrument line lineIndex hlater hlaterFits hrest he
        simp only [NoteEvent.startsWithin, Bool.and_eq_true, decide_eq_true_eq]
        omega
      · intro e he
        have hwithin := startsWithin_of_mem_moved ht htfits (by omega) he
        simpa [NoteEvent.startsWithin] using hwithin
    | succ n =>
      have hnLater : later[n]? = some s := by simpa using hn
      obtain ⟨behind, hbehind⟩ := ih hlater hlaterFits
        (tokens + (kindsOf (piece instrument line t)).length) hrest hnLater
      have hsum : ticksBefore (t :: later) (n + 1) = t.length.toNat + ticksBefore later n := by
        simp [ticksBefore]
      refine ⟨behind, ?_⟩
      rw [hadd, Nat.add_assoc, ← hsum] at hbehind
      rw [hbehind, List.filter_eq_nil_iff.mpr, List.nil_append]
      intro e he
      have hwithin := startsWithin_of_mem_moved ht htfits (by omega) he
      simp only [NoteEvent.startsWithin, Bool.and_eq_true, decide_eq_true_eq]
      omega

end Songs

/-! ## Documents -/

namespace IsPlainDocument

variable {root : List (Value × Value)} (h : IsPlainDocument root)
  (hanew : ∀ s ∈ playedIn root, s.StartsAnew) (hfits : ∀ s ∈ playedIn root, s.Fits)
  (htotal : totalTicks (playedIn root) < 2 ^ 64)
include h hanew hfits htotal

/-- In the stretch of a section a stave plays what the section's pattern for it plays by itself. -/
theorem exists_stave_within (r : Registry) {k : Nat} {instrument : String} {line : Nat}
    (hstave : (staves (playedIn root))[k]? = some (instrument, line)) :
    ∃ l, (compiled root r).lines[(sampleLines root).length + k]? = some l
      ∧ ∀ n s, (playedIn root)[n]? = some s → ∃ behind,
        (l.events.filter fun e => e.startsWithin (ticksBefore (playedIn root) n)
            (ticksBefore (playedIn root) n + s.length.toNat))
          = (s.eventsFor instrument line ((sampleLines root).length + k)).map
            (NoteEvent.moved (Ticks.ofNat (ticksBefore (playedIn root) n)) behind) := by
  obtain ⟨l, hl, hstave⟩ := h.exists_stave r hstave
  refine ⟨l, hl, fun n s hn => ?_⟩
  have hstart : Ticks.zero.toNat + totalTicks (playedIn root) < 2 ^ 64 := by
    rwa [Ticks.toNat_zero, Nat.zero_add]
  obtain ⟨behind, hwithin⟩ := filter_placed instrument line
    ((sampleLines root).length + k) h.sections hfits 0 hstart hn
  rw [Ticks.toNat_zero, Nat.zero_add] at hwithin
  refine ⟨behind, ?_⟩
  rw [hstave.events_eq_placed h.sections hanew, placed_sounding h.sections hfits]
  exact hwithin

end IsPlainDocument

end Song

end Stave
