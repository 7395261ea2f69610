import Stave.Proofs.Score.Channel
import Stave.Proofs.Score.Lexing
import Stave.Proofs.Score.Ties
import Stave.Proofs.Text.Lines
import Stave.Song.Arrangement

/-!
# What a line plays while a section lasts

A pattern is *plain* when it is trimmed notation on one line that is no address, closes every bracket
that it opens, and takes whole beats.  Filled up with rests, a plain pattern is plain again and takes
exactly as long as its section; so do the rests that stand in for a pattern that is left out.
-/

namespace Stave

/-! ## Whole beats -/

namespace Ticks

/-- Whether a length is a whole number of beats. -/
def IsWhole (t : Ticks) : Prop := t.toNat % perBeat = 0

instance (t : Ticks) : Decidable t.IsWhole := inferInstanceAs (Decidable (_ = _))

theorem wholeBeats_mul {t : Ticks} (h : t.IsWhole) : t.wholeBeats * perBeat = t.toNat := by
  rw [IsWhole, perBeat] at h
  rw [wholeBeats, perBeat]
  omega

/-- The beats that are missing from a length make it up to a longer one. -/
theorem add_ofBeats_missing {a b : Ticks} (ha : a.IsWhole) (hb : b.IsWhole) (hle : a ≤ b) :
    a + ofBeats (b.wholeBeats - a.wholeBeats) = b := by
  have hmissing : a.toNat + (b.wholeBeats - a.wholeBeats) * perBeat = b.toNat := by
    rw [Nat.sub_mul, wholeBeats_mul ha, wholeBeats_mul hb]
    exact Nat.add_sub_cancel' (le_iff_toNat_le.mp hle)
  rw [ofBeats, ← ofNat_toNat a, ← ofNat_add, ofNat_toNat, hmissing, ofNat_toNat]

theorem ofBeats_wholeBeats {t : Ticks} (h : t.IsWhole) : ofBeats t.wholeBeats = t := by
  rw [ofBeats, wholeBeats_mul h, ofNat_toNat]

theorem isWhole_maximum {lengths : List Ticks} (h : ∀ t ∈ lengths, t.IsWhole) :
    (maximum lengths).IsWhole := by
  rcases List.mem_cons.mp (foldl_longer lengths zero).2.2 with hzero | hmem
  · rw [maximum, hzero]
    decide
  · exact h _ hmem

end Ticks

namespace Song

/-! ## Phrases -/

/-- Notation that can stand beside other notation on a line. -/
structure IsPhrase (text : List Char) : Prop extends IsContent text where
  ne_nil : text ≠ []
  closed : closesBrackets text = true

theorem IsPhrase.append {a b : List Char} (ha : IsPhrase a) (hb : IsPhrase b) :
    IsPhrase (a ++ ' ' :: b) where
  ne_nil := by simp
  trimmed := ha.trimmed.append_cons ha.ne_nil hb.trimmed hb.ne_nil ' '
  oneLine := by simp [ha.oneLine, hb.oneLine]
  notUrl := isUrl_of_space (by simp)
  closed := closesBrackets_append ha.closed (by simpa [closesBrackets] using hb.closed)

/-- Phrases joined by spaces are a phrase. -/
theorem isPhrase_intercalate {texts : List (List Char)} (hne : texts ≠ [])
    (h : ∀ text ∈ texts, IsPhrase text) : IsPhrase ([' '].intercalate texts) := by
  induction texts with
  | nil => exact absurd rfl hne
  | cons text rest ih =>
    have htext := h text List.mem_cons_self
    by_cases hlast : rest = []
    · simpa [hlast] using htext
    · rw [List.intercalate_cons_of_ne_nil hlast, List.append_assoc, List.singleton_append]
      exact htext.append (ih hlast fun t ht => h t (List.mem_cons_of_mem _ ht))

/-! ## Rests -/

theorem isPhrase_restsFor {count : Nat} (h : count ≠ 0) : IsPhrase (restsFor count) := by
  apply isPhrase_intercalate
  · simpa using h
  · intro text htext
    rw [List.eq_of_mem_replicate htext]
    exact ⟨⟨by decide, by decide, by decide⟩, by decide, rfl⟩

theorem isTrimmed_restsFor (count : Nat) : Text.IsTrimmed (restsFor count) := by
  by_cases h : count = 0
  · rw [h]
    exact Text.isTrimmed_nil
  · exact (isPhrase_restsFor h).trimmed

theorem kindsOf_restsFor (count : Nat) : kindsOf (restsFor count) = List.replicate count .rest := by
  rw [restsFor, kindsOf_intercalate]
  · have hrest : kindsOf ['-'] = [.rest] := by
      rw [kindsOf_eq]
      simp [Token.cuts, Token.cut, TokenKind.read]
    rw [List.flatMap_replicate, hrest]
    simp
  · intro text htext
    rw [List.eq_of_mem_replicate htext]
    rfl

theorem span_replicate_rest (count : Nat) :
    TokenKind.span (List.replicate count .rest) = count * Ticks.perBeat := by
  have hrings (t : Option OpenTie) (ht : t = none) :
      TokenKind.ringsFrom t (List.replicate count .rest) = 0 := by
    induction count with
    | zero => simp [TokenKind.ringsFrom, OpenTie.rings, ht]
    | succ count ih =>
      rw [List.replicate_succ, TokenKind.ringsFrom]
      simp [ht, OpenTie.rings, OpenTie.begun?]
      exact ht ▸ ih
  rw [TokenKind.span, TokenKind.rings, hrings none rfl]
  simp [TokenKind.ticks]

/-! ## Trimmed lines -/

theorem isTrimmed_fill (pattern : List Char) (length : Ticks) : Text.IsTrimmed (fill pattern length) := by
  have hpattern := Text.isTrimmed_trim pattern
  simp only [fill]
  -- nothing is missing, there is nothing to fill, or rests go behind the pattern
  split
  · exact hpattern
  · next hmissing =>
    split
    · exact isTrimmed_restsFor _
    · next hne =>
      exact hpattern.append_cons (by simpa using hne) (isTrimmed_restsFor _)
        (isPhrase_restsFor hmissing).ne_nil ' '

theorem isTrimmed_piece (instrument : String) (line : Nat) (s : Section) :
    Text.IsTrimmed (piece instrument line s) := by
  rw [piece]
  split
  · exact isTrimmed_fill _ _
  · exact isTrimmed_restsFor _

/-- The notation of a flat line is trimmed, whatever the patterns are. -/
theorem isTrimmed_flatNotation (played : List Section) (instrument : String) (line : Nat) :
    Text.IsTrimmed (flatNotation played instrument line) := by
  apply Text.isTrimmed_intercalate
  intro text htext
  obtain ⟨hmem, hne⟩ := List.mem_filter.mp htext
  obtain ⟨s, -, rfl⟩ := List.mem_map.mp hmem
  exact ⟨by simpa using hne, isTrimmed_piece instrument line s⟩

/-! ## Patterns -/

theorem length_eventsOf (tokens : List Token) (lineIndex : Nat) (instrument : String) :
    (eventsOf tokens lineIndex instrument).2
      = Ticks.ofNat (TokenKind.span (tokens.map Token.kind)) := by
  simp only [eventsOf, Cursor.beat_walk]
  exact zero_add _

theorem lengthOf_eq (pattern : List Char) :
    lengthOf pattern = Ticks.ofNat (TokenKind.span (kindsOf pattern)) :=
  length_eventsOf _ 0 ""

/-- A pattern as a section should have it. -/
structure IsPlain (pattern : List Char) : Prop where
  trimmed : Text.trim pattern = pattern
  oneLine : '\n' ∉ pattern
  notUrl : isUrl pattern = false
  closed : closesBrackets pattern = true
  whole : (lengthOf pattern).IsWhole

instance (pattern : List Char) : Decidable (IsPlain pattern) :=
  decidable_of_iff
    (Text.trim pattern = pattern ∧ '\n' ∉ pattern ∧ isUrl pattern = false
      ∧ closesBrackets pattern = true ∧ (lengthOf pattern).IsWhole)
    ⟨fun ⟨h₁, h₂, h₃, h₄, h₅⟩ => ⟨h₁, h₂, h₃, h₄, h₅⟩,
      fun h => ⟨h.trimmed, h.oneLine, h.notUrl, h.closed, h.whole⟩⟩

theorem IsPlain.isPhrase {pattern : List Char} (h : IsPlain pattern) (hne : pattern ≠ []) :
    IsPhrase pattern where
  ne_nil := hne
  trimmed := h.trimmed ▸ Text.isTrimmed_trim pattern
  oneLine := h.oneLine
  notUrl := h.notUrl
  closed := h.closed

/-- Filling a pattern up puts the missing rests behind its tokens. -/
theorem kindsOf_fill_of_closed {pattern : List Char} (htrimmed : Text.trim pattern = pattern)
    (hclosed : closesBrackets pattern = true) (length : Ticks) :
    kindsOf (fill pattern length)
      = kindsOf pattern
        ++ List.replicate (length.wholeBeats - (lengthOf pattern).wholeBeats) .rest := by
  simp only [fill, htrimmed]
  -- nothing is missing, there is nothing to fill, or rests go behind the pattern
  split
  · next hnone => rw [hnone, List.replicate_zero, List.append_nil]
  · split
    · next hempty =>
      rw [kindsOf_restsFor, List.isEmpty_iff.mp hempty, kindsOf_nil, List.nil_append]
    · rw [kindsOf_append hclosed, kindsOf_restsFor]

theorem kindsOf_fill {pattern : List Char} (h : IsPlain pattern) (length : Ticks) :
    kindsOf (fill pattern length)
      = kindsOf pattern
        ++ List.replicate (length.wholeBeats - (lengthOf pattern).wholeBeats) .rest :=
  kindsOf_fill_of_closed h.trimmed h.closed length

/-- A filled pattern is nothing or a phrase. -/
theorem isPhrase_fill {pattern : List Char} (h : IsPlain pattern) (length : Ticks)
    (hne : fill pattern length ≠ []) : IsPhrase (fill pattern length) := by
  simp only [fill, h.trimmed] at hne ⊢
  split
  · next hnone =>
    rw [if_pos hnone] at hne
    exact h.isPhrase hne
  · next hmissing =>
    split
    · exact isPhrase_restsFor hmissing
    · next hpattern =>
      exact (h.isPhrase (by simpa using hpattern)).append (isPhrase_restsFor hmissing)

theorem startsAnew_replicate_rest (count : Nat) :
    TokenKind.StartsAnew (List.replicate count .rest) := by
  intro kind hkind
  rw [List.eq_of_mem_replicate (List.mem_of_mem_head? hkind)]
  rfl

/-- A filled pattern takes as long as the pattern and the beats that are missing. -/
theorem lengthOf_fill {pattern : List Char} (htrimmed : Text.trim pattern = pattern)
    (hclosed : closesBrackets pattern = true) (length : Ticks) :
    lengthOf (fill pattern length)
      = lengthOf pattern + Ticks.ofBeats (length.wholeBeats - (lengthOf pattern).wholeBeats) := by
  rw [lengthOf_eq, kindsOf_fill_of_closed htrimmed hclosed,
    TokenKind.span_append (startsAnew_replicate_rest _), span_replicate_rest, Ticks.ofNat_add,
    ← lengthOf_eq]
  rfl

/-- A filled pattern takes exactly the length that it is filled up to. -/
theorem span_fill {pattern : List Char} (h : IsPlain pattern) {length : Ticks}
    (hwhole : length.IsWhole) (hle : lengthOf pattern ≤ length) :
    Ticks.ofNat (TokenKind.span (kindsOf (fill pattern length))) = length := by
  rw [← lengthOf_eq, lengthOf_fill h.trimmed h.closed]
  exact Ticks.add_ofBeats_missing h.whole hwhole hle

/-! ## Sections -/

/-- Whether every pattern of a section is plain. -/
def Section.IsPlain (s : Section) : Prop :=
  ∀ part ∈ s.parts, ∀ pattern ∈ part.patterns, Song.IsPlain pattern.toList

instance (s : Section) : Decidable s.IsPlain :=
  inferInstanceAs (Decidable (∀ part ∈ s.parts, ∀ pattern ∈ part.patterns, _))

namespace Section

theorem IsPlain.pattern? {s : Section} (h : s.IsPlain) {instrument : String} {line : Nat}
    {pattern : String} (hpattern : s.pattern? instrument line = some pattern) :
    Song.IsPlain pattern.toList ∧ lengthOf pattern.toList ≤ s.length := by
  obtain ⟨part, hpart, hline⟩ := Option.bind_eq_some_iff.mp hpattern
  have hmem := List.mem_of_getElem? hline
  have hparts := List.mem_of_find?_eq_some hpart
  refine ⟨h part hparts pattern hmem, Ticks.le_maximum (List.mem_map.mpr ⟨pattern, ?_, rfl⟩)⟩
  exact List.mem_flatMap.mpr ⟨part, hparts, hmem⟩

theorem IsPlain.isWhole_length {s : Section} (h : s.IsPlain) : s.length.IsWhole := by
  apply Ticks.isWhole_maximum
  intro t ht
  obtain ⟨pattern, hpattern, rfl⟩ := List.mem_map.mp ht
  obtain ⟨part, hpart, hmem⟩ := List.mem_flatMap.mp hpattern
  exact (h part hpart pattern hmem).whole

end Section

/-- What a line plays while a section lasts takes exactly as long as the section. -/
theorem span_piece {s : Section} (h : s.IsPlain) (instrument : String) (line : Nat) :
    Ticks.ofNat (TokenKind.span (kindsOf (piece instrument line s))) = s.length := by
  rw [piece]
  split
  · next pattern hpattern =>
    obtain ⟨hplain, hle⟩ := h.pattern? hpattern
    exact span_fill hplain h.isWhole_length hle
  · rw [kindsOf_restsFor, span_replicate_rest]
    exact Ticks.ofBeats_wholeBeats h.isWhole_length

/-- What a line plays while a section lasts is a phrase, unless the section has no length. -/
theorem isPhrase_piece {s : Section} (h : s.IsPlain) (hlength : Ticks.zero < s.length)
    (instrument : String) (line : Nat) : IsPhrase (piece instrument line s) := by
  -- nothing would span nothing
  have hne : piece instrument line s ≠ [] := by
    intro hnil
    have hspan := span_piece h instrument line
    rw [hnil, kindsOf_nil] at hspan
    rw [← hspan] at hlength
    exact absurd hlength (by decide)
  rw [piece] at hne ⊢
  split
  · next pattern hpattern =>
    rw [hpattern] at hne
    exact isPhrase_fill (h.pattern? hpattern).1 _ hne
  · next hnone =>
    rw [hnone] at hne
    apply isPhrase_restsFor
    intro hzero
    apply hne
    show restsFor s.length.wholeBeats = []
    rw [hzero]
    rfl

end Song

end Stave
