import Stave.Proofs.Song.FlatText

/-!
# How long the lines of a song are

The lines of a plain document are as long as its sections together, but for the tie chains at the
seams between sections.  A chain that one section ends with may go on with the holds that the next one
begins with: then it rings where neither section rings by itself, or rings once where both do.
-/

namespace Stave.Song

open Yaml TokenKind

/-! ## Seams -/

/-- Joined lists span what the lists span, less what they ring by themselves, and what they ring
together. -/
theorem span_flatMap {α : Type} (kinds : α → List TokenKind) (l : List α) :
    span (l.flatMap kinds) + Ticks.perBeat * (l.map fun a => rings (kinds a)).sum
      = (l.map fun a => span (kinds a)).sum + Ticks.perBeat * rings (l.flatMap kinds) := by
  have hticks : ((l.flatMap kinds).map ticks).sum
      + Ticks.perBeat * (l.map fun a => rings (kinds a)).sum
      = (l.map fun a => span (kinds a)).sum := by
    induction l with
    | nil => rfl
    | cons a rest ih =>
      simp only [List.flatMap_cons, List.map_append, List.sum_append, List.map_cons, List.sum_cons,
        span, Nat.mul_add] at ih ⊢
      omega
  rw [span, Nat.add_right_comm, hticks]

/-- Whether as many tie chains end on a hold in a flat line as in its pieces by themselves. -/
def SeamsHold (played : List Section) (stave : String × Nat) : Prop :=
  Ticks.ofBeats (rings (kindsOf (flatNotation played stave.1 stave.2)))
    = Ticks.ofBeats ((pieces played stave.1 stave.2).map fun text => rings (kindsOf text)).sum

instance (played : List Section) (stave : String × Nat) : Decidable (SeamsHold played stave) :=
  inferInstanceAs (Decidable (_ = _))

/-! ## Spans -/

theorem sum_length_sounding (played : List Section) :
    ((sounding played).map Section.length).sum = (played.map Section.length).sum := by
  induction played with
  | nil => rfl
  | cons s rest ih =>
    rw [List.map_cons, List.sum_cons, ← ih]
    by_cases h : Ticks.zero < s.length
    · simp [sounding, h]
    · rw [Ticks.eq_zero_of_not_pos h, zero_add]
      simp [sounding, h]

/-- A flat line and what its pieces ring by themselves are as long as the song and what the line
rings. -/
theorem span_flatNotation {played : List Section} (hplain : ∀ s ∈ played, s.IsPlain)
    (instrument : String) (line : Nat) :
    Ticks.ofNat (span (kindsOf (flatNotation played instrument line)))
        + Ticks.ofBeats ((pieces played instrument line).map fun text => rings (kindsOf text)).sum
      = Ticks.sum (played.map Section.length)
        + Ticks.ofBeats (rings (kindsOf (flatNotation played instrument line))) := by
  -- each piece spans its section
  have hlengths : ((sounding played).map fun s =>
      Ticks.ofNat (span (kindsOf (piece instrument line s)))) = (sounding played).map Section.length :=
    List.map_congr_left fun s hs => span_piece (hplain s (mem_sounding.mp hs).1) instrument line
  have hspan := span_flatMap (fun s => kindsOf (piece instrument line s)) (sounding played)
  rw [Nat.mul_comm _ (List.sum _), Nat.mul_comm _ (rings _)] at hspan
  -- the numbers of ticks are equal, and so are the words that count them
  have hticks := congrArg Ticks.ofNat hspan
  rw [Ticks.ofNat_add, Ticks.ofNat_add, Ticks.ofNat_sum (List.map _ _), List.map_map,
    Function.comp_def, hlengths, sum_length_sounding] at hticks
  rw [kindsOf_flatNotation hplain, pieces_eq hplain, List.map_map, Ticks.sum_eq]
  exact hticks

/-- A flat line is as long as the song exactly when its seams hold. -/
theorem span_eq_sum_iff {played : List Section} (hplain : ∀ s ∈ played, s.IsPlain)
    (stave : String × Nat) :
    Ticks.ofNat (span (kindsOf (flatNotation played stave.1 stave.2)))
        = Ticks.sum (played.map Section.length)
      ↔ SeamsHold played stave := by
  have hspan := span_flatNotation hplain stave.1 stave.2
  constructor
  · intro h
    rw [h] at hspan
    exact (add_left_cancel hspan).symm
  · intro h
    rw [SeamsHold] at h
    rw [h] at hspan
    exact add_right_cancel hspan

/-- Where no piece begins with a token that can go on with a tie chain, the seams hold. -/
theorem seamsHold_of_startsAnew {played : List Section} (hplain : ∀ s ∈ played, s.IsPlain)
    (stave : String × Nat)
    (h : ∀ text ∈ pieces played stave.1 stave.2, StartsAnew (kindsOf text)) :
    SeamsHold played stave := by
  rw [SeamsHold, flatNotation, kindsOf_intercalate fun text htext =>
    (isPhrase_of_mem_pieces hplain stave.1 stave.2 htext).closed]
  exact congrArg Ticks.ofBeats (rings_flatMap h)

/-- The lines of a plain document that declare nothing are all as long as its sections together
exactly when this holds of the lines of its samples and the seams of every stave hold.  Where every
sample has a name that can be declared, its lines do declare it. -/
theorem lines_span_song_iff {text : List Char} {root : List (Value × Value)}
    (hroot : rootOf? text = some root) (hplain : IsPlainDocument root) (r : Registry) :
    let total := Ticks.sum ((playedIn root).map Section.length)
    let lines := (Composition.ofText (Arrangement.ofRoot root).text r).1.lines
    let ofSamples := lines.take (sampleLines root).length
    Arrangement.ofText? text = some (Arrangement.ofRoot root)
      ∧ ((∀ l ∈ lines, l.declaration = none → l.length = total)
        ↔ (∀ l ∈ ofSamples, l.declaration = none → l.length = total)
          ∧ ∀ stave ∈ staves (playedIn root), SeamsHold (playedIn root) stave)
      ∧ ((∀ d ∈ samplesIn root, IsChannelName d.name.toList ∧ Registry.isBuiltin d.name = false) →
        ∀ l ∈ ofSamples, l.declaration ≠ none) := by
  intro total lines ofSamples
  have hlength := hplain.length_compiled r
  refine ⟨by rw [Arrangement.ofText?, hroot]; rfl, ⟨fun hall => ⟨fun l hl => ?_, ?_⟩, ?_⟩, ?_⟩
  · exact hall l (List.mem_of_mem_take hl)
  · intro stave hstave
    obtain ⟨k, hk⟩ := List.getElem?_of_mem hstave
    obtain ⟨l, hl, hstave⟩ := hplain.exists_stave r hk
    have hspan := hall l (List.mem_of_getElem? hl) hstave.declaration_eq
    rw [hstave.length_eq] at hspan
    exact (span_eq_sum_iff hplain.sections stave).mp hspan
  · rintro ⟨hsamples, hseams⟩ l hl hnone
    obtain ⟨i, hi⟩ := List.getElem?_of_mem hl
    by_cases hlt : i < (sampleLines root).length
    · exact hsamples l (List.mem_of_getElem? (by rw [List.getElem?_take_of_lt hlt, hi])) hnone
    · -- what stands behind the samples is the line of a stave
      obtain ⟨k, rfl⟩ := Nat.exists_eq_add_of_le (Nat.not_lt.mp hlt)
      have hk : k < (staves (playedIn root)).length := by
        have hbound : (sampleLines root).length + k < (compiled root r).lines.length :=
          (List.getElem?_eq_some_iff.mp hi).1
        omega
      obtain ⟨l', hl', hstave⟩ := hplain.exists_stave r (List.getElem?_eq_getElem hk)
      obtain rfl : l = l' := Option.some_inj.mp (hi.symm.trans hl')
      rw [hstave.length_eq]
      exact (span_eq_sum_iff hplain.sections _).mpr (hseams _ (List.getElem_mem hk))
  · intro hnames l hl
    exact hplain.declaration_of_mem_take r hnames hl

/-- A song of two sections, one of them played twice, with a sample, a chain that rings at a seam and
an instrument that is left out. -/
theorem lines_span_song_of_two_sections :
    let text := ['\n'].intercalate <| List.map String.toList
      ["samples:", "  vox: file:///v.wav", "sections:", "  a:", "    piano: d4 C4~ ~",
        "    vox: x -", "  b:", "    bass: C2", "song: [a x2, b]"]
    ∃ root, rootOf? text = some root ∧ IsPlainDocument root
      ∧ Ticks.sum ((playedIn root).map Section.length) = Ticks.ofBeats 9
      ∧ ∀ l ∈ (Composition.ofText (Arrangement.ofRoot root).text Registry.empty).1.lines,
        l.declaration = none → l.length = Ticks.sum ((playedIn root).map Section.length) := by
  intro text
  obtain ⟨root, hroot, hplain, hnames, hanew, htotal⟩ :
      ∃ root, rootOf? text = some root ∧ IsPlainDocument root
        ∧ (∀ d ∈ samplesIn root, IsChannelName d.name.toList ∧ Registry.isBuiltin d.name = false)
        ∧ (∀ stave ∈ staves (playedIn root),
          ∀ piece ∈ pieces (playedIn root) stave.1 stave.2, StartsAnew (kindsOf piece))
        ∧ Ticks.sum ((playedIn root).map Section.length) = Ticks.ofBeats 9 :=
    exists_root (by decide +kernel)
  have hseams : ∀ stave ∈ staves (playedIn root), SeamsHold (playedIn root) stave :=
    fun stave hstave => seamsHold_of_startsAnew hplain.sections stave (hanew stave hstave)
  obtain ⟨-, hiff, hdeclared⟩ := lines_span_song_iff hroot hplain Registry.empty
  refine ⟨root, hroot, hplain, htotal, hiff.mpr ⟨fun l hl hnone => ?_, hseams⟩⟩
  exact absurd hnone (hdeclared hnames l hl)

/-- A tied note at the end of a section and a hold at the start of the next: the flat line rings for
three beats, although the sections take two. -/
theorem tie_across_sections_lengthens_line :
    let text := ['\n'].intercalate <| List.map String.toList
      ["sections:", "  a:", "    piano: C4~", "    bass: C2", "  b:", "    piano: ~", "    bass: C2"]
    ∃ root, rootOf? text = some root ∧ IsPlainDocument root
      ∧ Ticks.sum ((playedIn root).map Section.length) = Ticks.ofBeats 2
      ∧ ((Composition.ofText (Arrangement.ofRoot root).text Registry.empty).1.lines.map fun l =>
        (l.declaration, l.length)) = [(none, Ticks.ofBeats 3), (none, Ticks.ofBeats 2)] := by
  intro text
  exact exists_root (by decide +kernel)

end Stave.Song
