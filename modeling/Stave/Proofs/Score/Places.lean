import Mathlib.Data.Prod.Lex
import Stave.Proofs.Score.Rearranging
import Stave.Proofs.Score.Ties

/-!
# The places of events

An event has a place in the text: the line and the token it was written as.  The events of a
composition stand in the order of their places, line by line and token by token, and no place is
taken twice.
-/

namespace Stave

/-- Where an event is written. -/
def NoteEvent.place (e : NoteEvent) : ℕ ×ₗ ℕ := toLex (e.lineIndex, e.tokenIndex)

theorem NoteEvent.place_lt_iff {e other : NoteEvent} :
    e.place < other.place
      ↔ e.lineIndex < other.lineIndex
        ∨ e.lineIndex = other.lineIndex ∧ e.tokenIndex < other.tokenIndex := Prod.Lex.toLex_lt_toLex

/-! ## Walks -/

namespace Cursor

/-- A cursor has left its events on its own line and channel, each behind the one before and all of
them before the token at which it stands. -/
structure IsOrdered (c : Cursor) : Prop where
  onLine : ∀ e ∈ c.events.toList, e.lineIndex = c.lineIndex
  onChannel : ∀ e ∈ c.events.toList, e.instrument = c.instrument
  before : ∀ e ∈ c.events.toList, e.tokenIndex < c.tokenIndex
  increasing : c.events.toList.Pairwise fun e other => e.tokenIndex < other.tokenIndex

namespace IsOrdered

theorem start (lineIndex : Nat) (instrument : String) :
    (Cursor.start lineIndex instrument).IsOrdered where
  onLine := by simp [Cursor.start]
  onChannel := by simp [Cursor.start]
  before := by simp [Cursor.start]
  increasing := .nil

variable {c : Cursor}

theorem skip (h : c.IsOrdered) (duration : Ticks) : (c.skip duration).IsOrdered where
  onLine := h.onLine
  onChannel := h.onChannel
  before e he := Nat.lt_succ_of_lt (h.before e he)
  increasing := h.increasing

theorem emit (h : c.IsOrdered) (notes : List String) (duration : Ticks) (soft : Bool) {tokens : Nat}
    (htokens : 0 < tokens) : (c.emit notes duration soft tokens).IsOrdered := by
  have hevents : (c.emit notes duration soft tokens).events.toList
      = c.events.toList
        ++ [⟨notes, c.beat, duration, c.lineIndex, c.tokenIndex, soft, c.instrument⟩] :=
    Array.toList_push
  constructor
  · rw [hevents, List.forall_mem_append, List.forall_mem_singleton]
    exact ⟨h.onLine, rfl⟩
  · rw [hevents, List.forall_mem_append, List.forall_mem_singleton]
    exact ⟨h.onChannel, rfl⟩
  · rw [hevents, List.forall_mem_append, List.forall_mem_singleton]
    exact ⟨fun e he => Nat.lt_add_right tokens (h.before e he), Nat.lt_add_of_pos_right htokens⟩
  · rw [hevents]
    refine List.pairwise_append.mpr ⟨h.increasing, List.pairwise_singleton _ _, ?_⟩
    intro e he last hlast
    rw [List.mem_singleton.mp hlast]
    exact h.before e he

theorem walk (h : c.IsOrdered) (kinds : List TokenKind) : (c.walk kinds).IsOrdered := by
  fun_induction Cursor.walk c kinds with
  | case1 c => exact h
  | case2 c later ih | case3 c later ih | case4 c later ih => exact ih (h.skip _)
  | case5 c later ih | case6 c notes later ih => exact ih (h.emit _ _ _ Nat.one_pos)
  | case7 c n later ih => exact ih (h.emit _ _ _ (Nat.add_pos_left Nat.one_pos _))

end IsOrdered

end Cursor

/-! ## Lines -/

section Events

variable {tokens : List Token} {lineIndex : Nat} {instrument : String}

theorem isOrdered_walk_tokens (tokens : List Token) (lineIndex : Nat) (instrument : String) :
    ((Cursor.start lineIndex instrument).walk (tokens.map Token.kind)).IsOrdered :=
  (Cursor.IsOrdered.start lineIndex instrument).walk _

theorem lineIndex_of_mem_eventsOf {e : NoteEvent}
    (h : e ∈ (eventsOf tokens lineIndex instrument).1) : e.lineIndex = lineIndex := by
  rw [(isOrdered_walk_tokens tokens lineIndex instrument).onLine e h, Cursor.lineIndex_walk]
  rfl

theorem instrument_of_mem_eventsOf {e : NoteEvent}
    (h : e ∈ (eventsOf tokens lineIndex instrument).1) : e.instrument = instrument := by
  rw [(isOrdered_walk_tokens tokens lineIndex instrument).onChannel e h, Cursor.instrument_walk]
  rfl

theorem pairwise_place_eventsOf (tokens : List Token) (lineIndex : Nat) (instrument : String) :
    (eventsOf tokens lineIndex instrument).1.Pairwise fun e other => e.place < other.place := by
  have hwalk := isOrdered_walk_tokens tokens lineIndex instrument
  refine hwalk.increasing.imp_of_mem ?_
  intro e other he hother hlt
  have hline : e.lineIndex = other.lineIndex :=
    (hwalk.onLine e he).trans (hwalk.onLine other hother).symm
  exact NoteEvent.place_lt_iff.mpr (.inr ⟨hline, hlt⟩)

end Events

theorem Line.sounds_of_mem {l : Line} {e : NoteEvent} (h : e ∈ l.events) : l.sounds = true := by
  simp [sounds, List.ne_nil_of_mem h]

namespace Registry

variable {r : Registry} {lineIndex : Nat} {line : List Char}

/-- A line that sounds is one of notation, on the channel that its heading names. -/
theorem lineOf_of_sounds (h : (r.lineOf lineIndex line).sounds = true) :
    Heading.declaration? line = none
      ∧ (r.lineOf lineIndex line).instrument = (r.channelOf line).instrument
      ∧ (r.lineOf lineIndex line).events
        = (eventsOf (tokensOf (r.channelOf line).content) lineIndex
            (r.channelOf line).instrument).1 := by
  rw [lineOf] at h ⊢
  cases hdeclared : Heading.declaration? line with
  | some d =>
    rw [hdeclared] at h
    cases h
  | none => exact ⟨rfl, rfl, rfl⟩

theorem lineIndex_of_mem_lineOf {e : NoteEvent} (h : e ∈ (r.lineOf lineIndex line).events) :
    e.lineIndex = lineIndex := by
  rw [(lineOf_of_sounds (Line.sounds_of_mem h)).2.2] at h
  exact lineIndex_of_mem_eventsOf h

theorem instrument_of_mem_lineOf {e : NoteEvent} (h : e ∈ (r.lineOf lineIndex line).events) :
    e.instrument = (r.lineOf lineIndex line).instrument := by
  obtain ⟨-, hinstrument, hevents⟩ := lineOf_of_sounds (Line.sounds_of_mem h)
  rw [hevents] at h
  rw [hinstrument]
  exact instrument_of_mem_eventsOf h

theorem pairwise_place_lineOf (r : Registry) (lineIndex : Nat) (line : List Char) :
    (r.lineOf lineIndex line).events.Pairwise fun e other => e.place < other.place := by
  rw [lineOf]
  split
  · exact .nil
  · exact pairwise_place_eventsOf _ _ _

end Registry

/-! ## Compositions -/

namespace Composition

theorem mem_lines_ofText {text : List Char} {r : Registry} {l : Line}
    (h : l ∈ (ofText text r).1.lines) :
    ∃ i line, (Text.lines text)[i]? = some line ∧ (ofText text r).2.lineOf i line = l := by
  obtain ⟨i, hi⟩ := List.mem_iff_getElem?.mp h
  rw [getElem?_lines_ofText, Option.map_eq_some_iff] at hi
  obtain ⟨line, hline, hl⟩ := hi
  exact ⟨i, line, hline, hl⟩

/-- The events of a composition stand as they are written. -/
theorem pairwise_place_events (text : List Char) (r : Registry) :
    (ofText text r).1.events.Pairwise fun e other => e.place < other.place := by
  refine List.pairwise_flatMap.mpr ⟨?_, ?_⟩
  · intro l hl
    obtain ⟨i, line, -, rfl⟩ := mem_lines_ofText hl
    exact Registry.pairwise_place_lineOf _ i line
  · rw [ofText_eq]
    refine List.pairwise_iff_getElem.mpr ?_
    intro i j hi hj hij e he other hother
    rw [List.getElem_mapIdx] at he hother
    -- of events on different lines the first is on the earlier one
    refine NoteEvent.place_lt_iff.mpr (.inl ?_)
    rw [Registry.lineIndex_of_mem_lineOf he, Registry.lineIndex_of_mem_lineOf hother]
    exact hij

theorem nodup_events (text : List Char) (r : Registry) : (ofText text r).1.events.Nodup := by
  refine (pairwise_place_events text r).imp ?_
  rintro e other hlt rfl
  exact lt_irrefl e.place hlt

end Composition

end Stave
