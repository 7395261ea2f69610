import Stave.Proofs.Song.FlatText

/-!
# The music of a song

Where no pattern begins with a token that can go on with a tie chain, arranging a document keeps its
music: the line of a stave plays, section by section, what the section's pattern for it plays by
itself, moved behind the sections before.  Rests that fill a pattern up or stand in for one leave
nothing, and no chain reaches from one section into the next.
-/

namespace Stave.Song

open Yaml TokenKind

/-! ## Pieces -/

/-- Whether every pattern of a section begins with a token that goes on with no tie chain. -/
def Section.StartsAnew (s : Section) : Prop :=
  ∀ part ∈ s.parts, ∀ pattern ∈ part.patterns, TokenKind.StartsAnew (kindsOf pattern.toList)

instance (s : Section) : Decidable s.StartsAnew :=
  inferInstanceAs (Decidable (∀ part ∈ s.parts, ∀ pattern ∈ part.patterns, _))

theorem Section.StartsAnew.pattern? {s : Section} (h : s.StartsAnew) {instrument : String}
    {line : Nat} {pattern : String} (hpattern : s.pattern? instrument line = some pattern) :
    TokenKind.StartsAnew (kindsOf pattern.toList) := by
  obtain ⟨part, hpart, hline⟩ := Option.bind_eq_some_iff.mp hpattern
  exact h part (List.mem_of_find?_eq_some hpart) pattern (List.mem_of_getElem? hline)

theorem startsAnew_piece {s : Section} (hplain : s.IsPlain) (h : s.StartsAnew)
    (instrument : String) (line : Nat) :
    TokenKind.StartsAnew (kindsOf (piece instrument line s)) := by
  rw [piece]
  split
  · next pattern hpattern =>
    rw [kindsOf_fill (hplain.pattern? hpattern).1]
    exact (h.pattern? hpattern).append (startsAnew_replicate_rest _)
  · rw [kindsOf_restsFor]
    exact startsAnew_replicate_rest _

/-- What a section's pattern for a stave plays by itself; nothing where it has none. -/
def Section.eventsFor (s : Section) (instrument : String) (line lineIndex : Nat) :
    List NoteEvent :=
  match s.pattern? instrument line with
  | some pattern => (eventsOf (tokensOf pattern.toList) lineIndex instrument).1
  | none => []

/-- What a line plays while a section lasts is what the section's pattern plays by itself. -/
theorem events_piece {s : Section} (hplain : s.IsPlain) (instrument : String)
    (line lineIndex : Nat) :
    ((Cursor.start lineIndex instrument).walk (kindsOf (piece instrument line s))).events.toList
      = s.eventsFor instrument line lineIndex := by
  rw [piece, Section.eventsFor]
  cases hpattern : s.pattern? instrument line with
  | some pattern =>
    simp only
    rw [kindsOf_fill (hplain.pattern? hpattern).1, Cursor.walk_append (startsAnew_replicate_rest _),
      Cursor.events_walk_rests]
    rfl
  | none =>
    simp only
    rw [kindsOf_restsFor, Cursor.events_walk_rests]
    rfl

/-! ## Lines -/

/-- What the sections play on a stave one after the other, the first of them behind `offset` ticks
and `tokens` tokens. -/
def placed (instrument : String) (line lineIndex : Nat) :
    Ticks → Nat → List Section → List NoteEvent
  | _, _, [] => []
  | offset, tokens, s :: later =>
    (s.eventsFor instrument line lineIndex).map (NoteEvent.moved offset tokens)
      ++ placed instrument line lineIndex (offset + s.length)
        (tokens + (kindsOf (piece instrument line s)).length) later

/-- A walk over the pieces of a line leaves what the sections play, one behind the other. -/
theorem events_walk_pieces {sections : List Section} (hplain : ∀ s ∈ sections, s.IsPlain)
    (hanew : ∀ s ∈ sections, s.StartsAnew) (line : Nat) (c : Cursor) :
    (c.walk (sections.flatMap fun s => kindsOf (piece c.instrument line s))).events.toList
      = c.events.toList ++ placed c.instrument line c.lineIndex c.beat c.tokenIndex sections := by
  induction sections generalizing c with
  | nil => simp [Cursor.walk, placed]
  | cons s later ih =>
    have hlater : ∀ t ∈ later, TokenKind.StartsAnew (kindsOf (piece c.instrument line t)) :=
      fun t ht => startsAnew_piece (hplain t (List.mem_cons_of_mem _ ht))
        (hanew t (List.mem_cons_of_mem _ ht)) c.instrument line
    have hs := hplain s List.mem_cons_self
    -- the later sections are walked over from where the first one leaves the cursor
    have hrest := ih (fun t ht => hplain t (List.mem_cons_of_mem _ ht))
      (fun t ht => hanew t (List.mem_cons_of_mem _ ht))
      (c.walk (kindsOf (piece c.instrument line s)))
    rw [Cursor.instrument_walk, Cursor.lineIndex_walk, Cursor.beat_walk, Cursor.tokenIndex_walk,
      span_piece hs] at hrest
    rw [List.flatMap_cons, Cursor.walk_append (startsAnew_flatMap hlater), hrest,
      Cursor.toList_events_walk, events_piece hs, List.append_assoc, placed]

/-! ## Sections without length -/

/-- Whether the ticks of every pattern of a section can be counted. -/
def Section.Fits (s : Section) : Prop :=
  ∀ part ∈ s.parts, ∀ pattern ∈ part.patterns, span (kindsOf pattern.toList) < 2 ^ 64

instance (s : Section) : Decidable s.Fits :=
  inferInstanceAs (Decidable (∀ part ∈ s.parts, ∀ pattern ∈ part.patterns, _))

/-- A section without length has no tokens, as long as its ticks can be counted. -/
theorem kindsOf_piece_of_length_zero {s : Section} (hplain : s.IsPlain) (hfits : s.Fits)
    (hzero : s.length = 0) (instrument : String) (line : Nat) :
    kindsOf (piece instrument line s) = [] := by
  have hbeats : s.length.wholeBeats = 0 := by
    rw [hzero]
    rfl
  rw [piece]
  cases hpattern : s.pattern? instrument line with
  | some pattern =>
    obtain ⟨hpatternPlain, hle⟩ := hplain.pattern? hpattern
    obtain ⟨part, hpart, hline⟩ := Option.bind_eq_some_iff.mp hpattern
    have hfit := hfits part (List.mem_of_find?_eq_some hpart) pattern (List.mem_of_getElem? hline)
    rw [hzero, lengthOf_eq, Ticks.le_iff_toNat_le, Ticks.toNat_ofNat_of_lt hfit] at hle
    simp only
    rw [kindsOf_fill hpatternPlain, eq_nil_of_span_eq_zero (Nat.le_zero.mp hle), hbeats,
      Nat.zero_sub, List.replicate_zero, List.append_nil]
  | none =>
    simp only
    rw [kindsOf_restsFor, hbeats, List.replicate_zero]

/-- The sections without length leave nothing out, as long as their ticks can be counted. -/
theorem placed_sounding {played : List Section} (hplain : ∀ s ∈ played, s.IsPlain)
    (hfits : ∀ s ∈ played, s.Fits) (instrument : String) (line lineIndex : Nat) (offset : Ticks)
    (tokens : Nat) :
    placed instrument line lineIndex offset tokens (sounding played)
      = placed instrument line lineIndex offset tokens played := by
  induction played generalizing offset tokens with
  | nil => rfl
  | cons s later ih =>
    have hrest := ih (fun t ht => hplain t (List.mem_cons_of_mem _ ht))
      (fun t ht => hfits t (List.mem_cons_of_mem _ ht))
    by_cases hlength : Ticks.zero < s.length
    · rw [sounding, List.filter_cons_of_pos (by simpa using hlength), placed, placed]
      exact congrArg (_ ++ ·) (hrest _ _)
    · -- a section without length has no events and moves nothing
      have hzero := Ticks.eq_zero_of_not_pos hlength
      have hs := hplain s List.mem_cons_self
      have hpiece := kindsOf_piece_of_length_zero hs (hfits s List.mem_cons_self) hzero instrument
        line
      have hevents : s.eventsFor instrument line lineIndex = [] := by
        rw [← events_piece hs, hpiece, Cursor.walk]
        rfl
      rw [sounding, List.filter_cons_of_neg (by simpa using hlength), placed, hevents, hpiece, hzero,
        List.map_nil, List.nil_append, add_zero, List.length_nil, Nat.add_zero]
      exact hrest _ _

/-! ## Documents -/

/-- The line of a stave plays the sections one behind the other. -/
theorem IsStave.events_eq_placed {played : List Section} (hplain : ∀ s ∈ played, s.IsPlain)
    (hanew : ∀ s ∈ played, s.StartsAnew) {instrument : String} {line lineIndex : Nat} {l : Line}
    (h : IsStave played (instrument, line) lineIndex l) :
    l.events = placed instrument line lineIndex Ticks.zero 0 (sounding played) := by
  have hsounding : ∀ s ∈ sounding played, s.IsPlain ∧ s.StartsAnew := fun s hs =>
    ⟨hplain s (mem_sounding.mp hs).1, hanew s (mem_sounding.mp hs).1⟩
  rw [h.events_eq, kindsOf_flatNotation hplain]
  exact events_walk_pieces (fun s hs => (hsounding s hs).1) (fun s hs => (hsounding s hs).2) line
    (Cursor.start lineIndex instrument)

/-- Arranging a plain document keeps its music, where no pattern begins with a token that can go on
with a tie chain.  There is one line for every instrument and every line on which it has a pattern,
and it plays what the sections' patterns for it play by themselves, each behind the sections before
it.  Sections without length leave nothing out as long as their ticks can be counted. -/
theorem events_of_compiled_document {text : List Char} {root : List (Value × Value)}
    (hroot : rootOf? text = some root) (hplain : IsPlainDocument root)
    (hanew : ∀ s ∈ playedIn root, s.StartsAnew) (r : Registry) :
    let lines := (Composition.ofText (Arrangement.ofRoot root).text r).1.lines
    let behind := (sampleLines root).length
    Arrangement.ofText? text = some (Arrangement.ofRoot root)
      ∧ lines.length = behind + (staves (playedIn root)).length
      ∧ (staves (playedIn root)).Nodup
      ∧ (∀ instrument line, (instrument, line) ∈ staves (playedIn root)
        ↔ ∃ s ∈ playedIn root, (s.pattern? instrument line).isSome)
      ∧ ∀ k instrument line, (staves (playedIn root))[k]? = some (instrument, line) →
        ∃ l, lines[behind + k]? = some l ∧ l.declaration = none ∧ l.instrument = instrument
          ∧ l.events = placed instrument line (behind + k) Ticks.zero 0 (sounding (playedIn root))
          ∧ ((∀ s ∈ playedIn root, s.Fits) →
            l.events = placed instrument line (behind + k) Ticks.zero 0 (playedIn root)) := by
  intro lines behind
  refine ⟨by rw [Arrangement.ofText?, hroot]; rfl, hplain.length_compiled r, nodup_staves _,
    fun _ _ => mem_staves_iff, fun k instrument line hk => ?_⟩
  obtain ⟨l, hl, hstave⟩ := hplain.exists_stave r hk
  have hevents := hstave.events_eq_placed hplain.sections hanew
  refine ⟨l, hl, hstave.declaration_eq, hstave.instrument_eq, hevents, fun hfits => ?_⟩
  rw [hevents, placed_sounding hplain.sections hfits]

/-- The line of the piano in a song of two sections, the first of which is played twice and ends with
a chain that rings; the piano is left out of the second. -/
theorem events_of_compiled_document_of_two_sections :
    let text := ['\n'].intercalate <| List.map String.toList
      ["samples:", "  vox: file:///v.wav", "sections:", "  a:", "    piano: d4 C4~ ~",
        "    vox: x -", "  b:", "    bass: C2", "song: [a x2, b]"]
    ∃ root, rootOf? text = some root ∧ IsPlainDocument root ∧ (∀ s ∈ playedIn root, s.StartsAnew)
      ∧ (∀ s ∈ playedIn root, s.Fits)
      ∧ ∃ l, (Composition.ofText (Arrangement.ofRoot root).text Registry.empty).1.lines[1]? = some l
        ∧ l.instrument = "piano" ∧ l.events = placed "piano" 0 1 Ticks.zero 0 (playedIn root)
        ∧ l.events.map (fun e => (e.notes, e.beat.toNat, e.duration.toNat))
          = [(["D4"], 0, 960), (["C4"], 960, 2880), (["D4"], 3840, 960), (["C4"], 4800, 2880)] := by
  intro text
  obtain ⟨root, hroot, hplain, hanew, hfits, hbehind, hfirst, hplaced⟩ :
      ∃ root, rootOf? text = some root ∧ IsPlainDocument root
        ∧ (∀ s ∈ playedIn root, s.StartsAnew) ∧ (∀ s ∈ playedIn root, s.Fits)
        ∧ (sampleLines root).length = 1 ∧ (staves (playedIn root))[0]? = some ("piano", 0)
        ∧ (placed "piano" 0 1 Ticks.zero 0 (playedIn root)).map
            (fun e => (e.notes, e.beat.toNat, e.duration.toNat))
          = [(["D4"], 0, 960), (["C4"], 960, 2880), (["D4"], 3840, 960), (["C4"], 4800, 2880)] :=
    exists_root (by decide +kernel)
  obtain ⟨-, -, -, -, hstaves⟩ := events_of_compiled_document hroot hplain hanew Registry.empty
  obtain ⟨l, hl, -, hinstrument, -, hevents⟩ := hstaves 0 "piano" 0 hfirst
  rw [hbehind] at hl hevents
  refine ⟨root, hroot, hplain, hanew, hfits, l, hl, hinstrument, hevents hfits, ?_⟩
  rw [hevents hfits]
  exact hplaced

end Stave.Song
