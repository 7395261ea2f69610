import Stave.Score.Heading
import Stave.Score.Token
import Stave.Time.Event

/-!
# Lines

A cursor walks over the tokens of a line and leaves an event at every note, chord and hit.  Each
token takes a beat, a dotted one a beat and a half; tied notes of one pitch and the holds between
them become a single event.
-/

namespace Stave

/-- A compiled line. -/
structure Line where
  tokens : List Token
  events : List NoteEvent
  /-- The channel of the line. -/
  instrument : String
  /-- Bytes before the notation. -/
  contentStart : Nat
  /-- Where the cursor stands after the last token. -/
  length : Ticks
  /-- The sample channel that the line declares instead of playing. -/
  declaration : Option Declaration
deriving DecidableEq, Repr

namespace Line

/-- Whether anything sounds. -/
def sounds (l : Line) : Bool := !l.events.isEmpty

/-- How many tokens have no meaning. -/
def countInvalid (l : Line) : Nat := l.tokens.countP Token.isInvalid

end Line

/-- A note with the tie chain behind it. -/
structure TieChain where
  length : Ticks
  /-- Tokens of the chain behind its first note. -/
  followers : Nat
  /-- What comes after the chain. -/
  rest : List TokenKind

namespace TieChain

/-- Extends a chain over the tokens that belong to it: tied notes of its pitch, and holds once
something in the chain is tied.  A chain that ends on a hold rings for one more beat. -/
def extend (pitch : Pitch) (tied onHold : Bool) (length : Ticks) (followers : Nat) :
    List TokenKind → TieChain
  | [] => ⟨if onHold then length + Ticks.beat else length, followers, []⟩
  | .note n :: rest =>
    if n.tied ∧ n.pitch = pitch then
      extend pitch true false (length + n.duration) (followers + 1) rest
    else ⟨if onHold then length + Ticks.beat else length, followers, .note n :: rest⟩
  | .hold :: rest =>
    if tied then extend pitch tied true (length + Ticks.beat) (followers + 1) rest
    else ⟨if onHold then length + Ticks.beat else length, followers, .hold :: rest⟩
  | kind :: rest => ⟨if onHold then length + Ticks.beat else length, followers, kind :: rest⟩

/-- The chain that a note begins. -/
def ofNote (n : Note) (rest : List TokenKind) : TieChain :=
  extend n.pitch n.tied false n.duration 0 rest

/-- What comes after a chain is no longer than what came after its first note. -/
theorem length_rest_extend_le (pitch : Pitch) (tied onHold : Bool) (length : Ticks)
    (followers : Nat) (kinds : List TokenKind) :
    (extend pitch tied onHold length followers kinds).rest.length ≤ kinds.length := by
  fun_induction extend pitch tied onHold length followers kinds
  all_goals simp_all
  all_goals omega

end TieChain

/-- The cursor over the tokens of a line. -/
structure Cursor where
  lineIndex : Nat
  instrument : String
  tokenIndex : Nat
  beat : Ticks
  events : Array NoteEvent

namespace Cursor

/-- A cursor at the start of a line. -/
def start (lineIndex : Nat) (instrument : String) : Cursor :=
  { lineIndex, instrument, tokenIndex := 0, beat := Ticks.zero, events := #[] }

/-- Passes over tokens that take `duration` without sounding. -/
def skip (c : Cursor) (duration : Ticks) : Cursor :=
  { c with tokenIndex := c.tokenIndex + 1, beat := c.beat + duration }

/-- Leaves an event and passes over the `tokens` tokens that it takes up. -/
def emit (c : Cursor) (notes : List String) (duration : Ticks) (soft : Bool) (tokens : Nat) :
    Cursor :=
  { c with
    tokenIndex := c.tokenIndex + tokens
    beat := c.beat + duration
    events := c.events.push
      { notes, beat := c.beat, duration, lineIndex := c.lineIndex, tokenIndex := c.tokenIndex,
        soft, instrument := c.instrument } }

/-- The names of the pitches of a chord. -/
def chordNames (notes : List Note) : List String := notes.map fun n => n.pitch.name

/-- The length of a chord: a beat and a half as soon as one of its notes is dotted. -/
def chordDuration (notes : List Note) : Ticks :=
  if notes.any Note.dotted then Ticks.dotted else Ticks.beat

/-- Walks over what all tokens say. -/
def walk (c : Cursor) : List TokenKind → Cursor
  | [] => c
  | .rest :: rest => walk (c.skip Ticks.beat) rest
  | .invalid :: rest => walk (c.skip Ticks.beat) rest
  | .hold :: rest => walk (c.skip Ticks.beat) rest
  | .hit :: rest => walk (c.emit [NoteEvent.strokePitch] Ticks.beat false 1) rest
  | .chord notes :: rest =>
    walk (c.emit (chordNames notes) (chordDuration notes) (notes.any Note.soft) 1) rest
  | .note n :: rest =>
    walk (c.emit [n.pitch.name] (TieChain.ofNote n rest).length n.soft
      (1 + (TieChain.ofNote n rest).followers)) (TieChain.ofNote n rest).rest
termination_by kinds => kinds.length
decreasing_by
  all_goals first
    | exact Nat.lt_succ_of_le (TieChain.length_rest_extend_le ..)
    | simp

end Cursor

/-- The events of a line's tokens and the length that the tokens take. -/
def eventsOf (tokens : List Token) (lineIndex : Nat) (instrument : String) :
    List NoteEvent × Ticks :=
  let walked := (Cursor.start lineIndex instrument).walk (tokens.map Token.kind)
  (walked.events.toList, walked.beat)

/-- Compiles a line by the channels of a registry.  A line that declares a sample plays nothing, also
when its name is built in and the declaration has no effect. -/
def Registry.lineOf (r : Registry) (lineIndex : Nat) (line : List Char) : Line :=
  match Heading.declaration? line with
  | some declaration =>
    { tokens := [], events := [], instrument := declaration.name
      contentStart := ((Heading.read? line).map Heading.contentStart).getD 0
      length := Ticks.zero
      declaration := if Registry.isBuiltin declaration.name then none else some declaration }
  | none =>
    let resolved := r.channelOf line
    let tokens := tokensOf resolved.content
    let (events, length) := eventsOf tokens lineIndex resolved.instrument
    { tokens, events, instrument := resolved.instrument, contentStart := resolved.contentStart,
      length, declaration := none }

end Stave
