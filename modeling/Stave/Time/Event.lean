import Stave.Time.Ticks

/-!
# Note events

A note event is one sounding thing on one channel: a pitch, a chord or a hit, with its start, its
length and how hard it is played.  It remembers the line and token it was written as.
-/

namespace Stave

/-- One sounding thing. -/
structure NoteEvent where
  /-- The names of the pitches that sound together. -/
  notes : List String
  /-- The start, from the start of the line. -/
  beat : Ticks
  duration : Ticks
  lineIndex : Nat
  tokenIndex : Nat
  /-- Whether it is played softly. -/
  soft : Bool
  /-- The channel that plays it. -/
  instrument : String
deriving DecidableEq, Repr, Inhabited

namespace NoteEvent

/-- The pitch that a hit carries; percussion does not look at it. -/
def strokePitch : String := "C4"

/-- How hard the event is played, between zero and one. -/
def velocity (e : NoteEvent) : Float32 := if e.soft then 0.4 else 0.8

/-- Where the event ends. -/
def finish (e : NoteEvent) : Ticks := e.beat + e.duration

/-- The event moved later by `offset`. -/
def shift (e : NoteEvent) (offset : Ticks) : NoteEvent := { e with beat := e.beat + offset }

end NoteEvent

end Stave
