import Stave.Time.Event

/-!
# The timeline

The events of one composition in the order of their starts, read from front to back.  Reading is a
window at a time and never goes back; only a rewind makes the events unread again.  That the events
are in order, and that the unread ones are the last of them, is part of the type.
-/

namespace Stave

/-- Events by start, and the part of them that is still unread. -/
structure Timeline where
  events : List NoteEvent
  unread : List NoteEvent
  sorted : events.Pairwise fun a b => a.beat ≤ b.beat
  unread_suffix : unread <:+ events

namespace Timeline

/-- A timeline without events. -/
def empty : Timeline :=
  { events := [], unread := [], sorted := List.Pairwise.nil, unread_suffix := List.suffix_refl [] }

/-- Whether one event starts no later than another. -/
def startsBy (a b : NoteEvent) : Bool := decide (a.beat ≤ b.beat)

theorem startsBy_trans (a b c : NoteEvent) (hab : startsBy a b) (hbc : startsBy b c) :
    startsBy a c :=
  decide_eq_true (Ticks.le_trans (of_decide_eq_true hab) (of_decide_eq_true hbc))

theorem startsBy_total (a b : NoteEvent) : startsBy a b || startsBy b a := by
  simpa [startsBy] using Ticks.le_total a.beat b.beat

/-- The events in the order of their starts.  Events that start together keep their order. -/
def byStart (events : List NoteEvent) : List NoteEvent := events.mergeSort startsBy

theorem pairwise_byStart (events : List NoteEvent) :
    (byStart events).Pairwise fun a b => a.beat ≤ b.beat :=
  (List.pairwise_mergeSort startsBy_trans startsBy_total events).imp of_decide_eq_true

/-- The timeline of the given events, all of them unread. -/
def ofEvents (events : List NoteEvent) : Timeline :=
  { events := byStart events
    unread := byStart events
    sorted := pairwise_byStart events
    unread_suffix := List.suffix_refl _ }

/-- The unread events that start from `start` on and before `finish`; those before `finish` are
read from now on, also the ones before `start` that are passed over. -/
def drain (t : Timeline) (start finish : Ticks) : List NoteEvent × Timeline :=
  let reached := t.unread.takeWhile fun e => decide (e.beat < finish)
  (reached.dropWhile fun e => decide (e.beat < start),
    { t with
      unread := t.unread.dropWhile fun e => decide (e.beat < finish)
      unread_suffix := (List.dropWhile_suffix _).trans t.unread_suffix })

/-- Makes every event unread again. -/
def rewind (t : Timeline) : Timeline :=
  { t with unread := t.events, unread_suffix := List.suffix_refl _ }

/-- How many events are unread. -/
def remaining (t : Timeline) : Nat := t.unread.length

end Timeline

end Stave
