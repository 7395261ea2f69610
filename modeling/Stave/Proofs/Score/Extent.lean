import Mathlib.Algebra.Order.BigOperators.Group.List
import Mathlib.Algebra.Order.Group.Nat
import Stave.Proofs.Score.Lexing
import Stave.Proofs.Score.Places
import Stave.Proofs.Score.Ties
import Stave.Proofs.Time.Ticks

/-!
# Where the events of a line end

A line's cursor is never behind the end of an event that it has left, as long as the ticks of the line
can be counted: a chain is as long as the tokens that it takes up.  So every event of a compiled text
has ended when its longest line has.
-/

namespace Stave

open TokenKind

/-- An event lasts, and it has ended by a tick. -/
structure NoteEvent.EndsBy (e : NoteEvent) (t : Ticks) : Prop where
  lasts : 0 < e.duration.toNat
  finish_le : e.beat.toNat + e.duration.toNat ≤ t.toNat

theorem NoteEvent.EndsBy.mono {e : NoteEvent} {t later : Ticks} (h : e.EndsBy t) (hle : t ≤ later) :
    e.EndsBy later :=
  ⟨h.lasts, Nat.le_trans h.finish_le (Ticks.le_iff_toNat_le.mp hle)⟩

theorem NoteEvent.EndsBy.beat_lt {e : NoteEvent} {t : Ticks} (h : e.EndsBy t) : e.beat < t := by
  rw [Ticks.lt_iff_toNat_lt]
  exact Nat.lt_of_lt_of_le (Nat.lt_add_of_pos_right h.lasts) h.finish_le

/-! ## Walks -/

namespace Cursor

/-- Whether all events have ended where a cursor stands. -/
def IsPast (c : Cursor) : Prop := ∀ e ∈ c.events, e.EndsBy c.beat

variable {c : Cursor} {taken : Nat}

theorem toNat_add_ofNat {t : Ticks} (h : t.toNat + taken < 2 ^ 64) :
    (t + Ticks.ofNat taken).toNat = t.toNat + taken := by
  rw [Ticks.toNat_add, Ticks.toNat_ofNat, Nat.add_mod_mod, Nat.mod_eq_of_lt h]

theorem IsPast.skip (h : c.IsPast) (hfits : c.beat.toNat + taken < 2 ^ 64) :
    (c.skip (Ticks.ofNat taken)).IsPast := by
  have hle : c.beat ≤ (c.skip (Ticks.ofNat taken)).beat := by
    rw [Ticks.le_iff_toNat_le, Cursor.skip, toNat_add_ofNat hfits]
    exact Nat.le_add_right _ _
  exact fun e he => (h e he).mono hle

theorem IsPast.emit (h : c.IsPast) (hpos : 0 < taken) (hfits : c.beat.toNat + taken < 2 ^ 64)
    (notes : List String) (soft : Bool) (tokens : Nat) :
    (c.emit notes (Ticks.ofNat taken) soft tokens).IsPast := by
  have hduration : (Ticks.ofNat taken).toNat = taken := Ticks.toNat_ofNat_of_lt (by omega)
  have hbeat : (c.emit notes (Ticks.ofNat taken) soft tokens).beat.toNat = c.beat.toNat + taken :=
    toNat_add_ofNat hfits
  intro e he
  rcases Array.mem_push.mp he with hbefore | rfl
  · refine (h e hbefore).mono ?_
    rw [Ticks.le_iff_toNat_le, hbeat]
    exact Nat.le_add_right _ _
  · exact ⟨hduration.symm ▸ hpos, by rw [hbeat, hduration]⟩

/-- A walk over tokens whose ticks can be counted leaves its events behind the cursor. -/
theorem IsPast.walk (h : c.IsPast) {kinds : List TokenKind}
    (hfits : c.beat.toNat + span kinds < 2 ^ 64) : (c.walk kinds).IsPast := by
  have hbeat : 0 < Ticks.perBeat := by decide
  fun_induction Cursor.walk c kinds with
  | case1 c => exact h
  | case2 c later ih | case3 c later ih | case4 c later ih =>
    -- a silent beat
    rw [span_cons rfl] at hfits
    replace hfits : c.beat.toNat + (Ticks.perBeat + span later) < 2 ^ 64 := hfits
    have hfirst : c.beat.toNat + Ticks.perBeat < 2 ^ 64 := by omega
    refine ih (h.skip hfirst) ?_
    rw [Cursor.skip, Ticks.beat, toNat_add_ofNat hfirst]
    omega
  | case5 c later ih =>
    rw [span_cons rfl] at hfits
    replace hfits : c.beat.toNat + (Ticks.perBeat + span later) < 2 ^ 64 := hfits
    have hfirst : c.beat.toNat + Ticks.perBeat < 2 ^ 64 := by omega
    refine ih (h.emit hbeat hfirst _ _ _) ?_
    rw [Cursor.emit, Ticks.beat, toNat_add_ofNat hfirst]
    omega
  | case6 c notes later ih =>
    rw [span_cons rfl] at hfits
    rw [← ofNat_ticks_chord] at ih ⊢
    have hlasts := perBeat_le_ticks (.chord notes)
    have hfirst : c.beat.toNat + (TokenKind.chord notes).ticks < 2 ^ 64 := by omega
    refine ih (h.emit (by omega) hfirst _ _ _) ?_
    rw [Cursor.emit, toNat_add_ofNat hfirst]
    omega
  | case7 c n later ih =>
    obtain ⟨taken, hlength, hlasts, hspan⟩ := TieChain.exists_length_ofNote n later
    rw [hlength] at ih ⊢
    have hfirst : c.beat.toNat + taken < 2 ^ 64 := by omega
    refine ih (h.emit (by omega) hfirst _ _ _) ?_
    rw [Cursor.emit, toNat_add_ofNat hfirst]
    omega

end Cursor

/-- The events of tokens whose ticks can be counted end by the length of the tokens. -/
theorem endsBy_of_mem_eventsOf {tokens : List Token} {lineIndex : Nat} {instrument : String}
    (h : span (tokens.map Token.kind) < 2 ^ 64) {e : NoteEvent}
    (he : e ∈ (eventsOf tokens lineIndex instrument).1) :
    e.EndsBy (eventsOf tokens lineIndex instrument).2 := by
  have hstart : (Cursor.start lineIndex instrument).IsPast := fun e he => by
    simp [Cursor.start] at he
  have hfits : (Cursor.start lineIndex instrument).beat.toNat + span (tokens.map Token.kind)
      < 2 ^ 64 := by
    rw [Cursor.start, Ticks.toNat_zero, Nat.zero_add]
    exact h
  exact hstart.walk hfits e (Array.mem_toList_iff.mp he)

/-! ## Compositions -/

/-- Whether the ticks of a line can be counted. -/
def Line.Fits (l : Line) : Prop := span (l.tokens.map Token.kind) < 2 ^ 64

instance (l : Line) : Decidable l.Fits := inferInstanceAs (Decidable (_ < _))

theorem Registry.endsBy_of_mem_lineOf {r : Registry} {lineIndex : Nat} {line : List Char}
    (h : (r.lineOf lineIndex line).Fits) {e : NoteEvent}
    (he : e ∈ (r.lineOf lineIndex line).events) : e.EndsBy (r.lineOf lineIndex line).length := by
  rw [Line.Fits, lineOf] at h
  rw [lineOf] at he ⊢
  cases hdeclared : Heading.declaration? line with
  | some d =>
    rw [hdeclared] at he
    cases he
  | none =>
    rw [hdeclared] at h he
    exact endsBy_of_mem_eventsOf h he

namespace Composition

/-- Whether a composition is what some text compiles to. -/
def IsCompiled (c : Composition) : Prop := ∃ text registry, c = (ofText text registry).1

/-- Whether the ticks of every line can be counted. -/
def Fits (c : Composition) : Prop := ∀ l ∈ c.lines, l.Fits

instance (c : Composition) : Decidable c.Fits :=
  inferInstanceAs (Decidable (∀ l ∈ c.lines, l.Fits))

/-- Every event of a compiled text whose ticks can be counted ends by the length of the text. -/
theorem endsBy_of_mem_events {c : Composition} (hcompiled : c.IsCompiled) (h : c.Fits)
    {e : NoteEvent} (he : e ∈ c.events) : e.EndsBy c.length := by
  obtain ⟨text, r, rfl⟩ := hcompiled
  obtain ⟨l, hl, hel⟩ := List.mem_flatMap.mp he
  have hsounds : (ofText text r).1.lines.any Line.sounds = true :=
    List.any_eq_true.mpr ⟨l, hl, Line.sounds_of_mem hel⟩
  have hlongest : l.length ≤ (ofText text r).1.length := by
    rw [length, if_pos hsounds]
    exact Ticks.le_maximum (List.mem_map_of_mem hl)
  have hfits := h l hl
  obtain ⟨i, line, -, rfl⟩ := mem_lines_ofText hl
  exact (Registry.endsBy_of_mem_lineOf hfits hel).mono hlongest

end Composition

/-! ## Short texts -/

namespace TokenKind

theorem ticks_le (kind : TokenKind) : kind.ticks ≤ Ticks.perBeat + Ticks.perBeat / 2 := by
  cases kind with
  | note n => rw [ticks]; split <;> decide
  | chord notes => rw [ticks]; split <;> decide
  | rest | hit | hold | invalid => decide

/-- No more chains ring than there are tokens, and the one that is open before them. -/
theorem ringsFrom_le (t : Option OpenTie) (kinds : List TokenKind) :
    ringsFrom t kinds ≤ OpenTie.rings t + kinds.length := by
  have hone (t : Option OpenTie) : OpenTie.rings t ≤ 1 := by
    rw [OpenTie.rings]
    split <;> decide
  induction kinds generalizing t with
  | nil => exact Nat.le_refl _
  | cons kind later ih =>
    rw [ringsFrom, List.length_cons]
    split
    · next extended _ =>
      have hlater := ih (some extended)
      have hopen := hone (some extended)
      omega
    · -- a chain that has just begun does not ring
      have hlater := ih (OpenTie.begun? kind)
      have hbegun : OpenTie.rings (OpenTie.begun? kind) = 0 := by
        cases kind <;> simp [OpenTie.begun?, OpenTie.rings]
      omega

theorem span_le (kinds : List TokenKind) : span kinds ≤ 2400 * kinds.length := by
  have hrings := ringsFrom_le none kinds
  have hticks : (kinds.map ticks).sum ≤ 1440 * kinds.length := by
    have hsum := List.sum_le_card_nsmul (kinds.map ticks) 1440
      (List.forall_mem_map.mpr fun kind _ => kind.ticks_le)
    rwa [List.length_map, Nat.nsmul_eq_mul, Nat.mul_comm] at hsum
  have hnone : OpenTie.rings none = 0 := rfl
  rw [span, rings, Ticks.perBeat]
  omega

end TokenKind

/-- A text has no more tokens than characters. -/
theorem length_cuts_le (text : List Char) : (Token.cuts text).length ≤ text.length := by
  fun_induction Token.cuts text with
  | case1 => exact Nat.le_refl _
  | case2 rest ih => exact Nat.le_succ_of_le ih
  | case3 c rest hspace ih =>
    exact Nat.succ_le_succ (Nat.le_trans ih (Token.length_cut_snd_le c rest))

theorem length_content_channelOf_le (r : Registry) (line : List Char) :
    (r.channelOf line).content.length ≤ line.length := by
  rw [Registry.channelOf]
  split
  · next h hread =>
    obtain ⟨hread, -⟩ := Option.filter_eq_some_iff.mp hread
    rw [Heading.read?] at hread
    split at hread
    · next rest hrest =>
      split at hread
      · cases hread
      · cases hread
        have hcontent := (List.dropWhile_suffix (l := rest) Text.isBlank).length_le
        have hline := congrArg List.length hrest
        rw [List.length_drop, List.length_cons] at hline
        simp only
        omega
    · cases hread
  · exact Nat.le_refl _

theorem Text.length_le_of_mem_lines {text line : List Char} (h : line ∈ lines text) :
    line.length ≤ text.length := by
  fun_induction lines text with
  | case1 text hempty => cases h
  | case2 text hne hnone =>
    obtain rfl := List.mem_singleton.mp h
    exact Nat.le_refl _
  | case3 text hne c rest hrest ih =>
    have hbehind := (List.dropWhile_suffix (l := text) (· != '\n')).length_le
    have hbefore := (List.takeWhile_prefix (l := text) (· != '\n')).length_le
    rw [hrest, List.length_cons] at hbehind
    rcases List.mem_cons.mp h with rfl | hlater
    · rw [dropReturn]
      split
      · rw [List.length_dropLast]
        omega
      · exact hbefore
    · have hline := ih hlater
      omega

/-- The ticks of every text that is not astronomically long can be counted. -/
theorem Composition.fits_of_length_lt {text : List Char} (h : text.length < 2 ^ 52) (r : Registry) :
    (ofText text r).1.Fits := by
  intro l hl
  obtain ⟨i, line, hline, rfl⟩ := mem_lines_ofText hl
  have hlength := Text.length_le_of_mem_lines (List.mem_of_getElem? hline)
  rw [Line.Fits, Registry.lineOf]
  split
  · exact (show span [] < 2 ^ 64 by decide)
  · have hcontent := length_content_channelOf_le (ofText text r).2 line
    have hcuts := length_cuts_le ((ofText text r).2.channelOf line).content
    have hspan := span_le (kindsOf ((ofText text r).2.channelOf line).content)
    rw [kindsOf_eq, List.length_map, ← kindsOf_eq] at hspan
    refine Nat.lt_of_le_of_lt hspan ?_
    omega

end Stave
