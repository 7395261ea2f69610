import Stave.JsonText
import Stave.Score.Composition

/-!
# Listings

A listing shows what each line of a text has become, for reading or as JSON.
-/

namespace Stave.Program

/-- A text with blanks behind it up to a width. -/
def padRight (width : Nat) (s : String) : String :=
  s ++ String.ofList (List.replicate (width - s.length) ' ')

/-- A text with blanks before it up to a width. -/
def padLeft (width : Nat) (s : String) : String :=
  String.ofList (List.replicate (width - s.length) ' ') ++ s

/-- A length or position in beats. -/
def beats (t : Ticks) : String := Decimal.Layout.plain.write t.toBeats

/-- The row of an event. -/
def eventRow (e : NoteEvent) : String :=
  "      @" ++ padRight 6 (beats e.beat) ++ " " ++ padRight 5 (beats e.duration) ++ " "
    ++ " ".intercalate e.notes ++ (if e.soft then " (soft)" else "") ++ "\n"

/-- The rows of a line; a line that says nothing has none. -/
def lineRows (index : Nat) (l : Line) : String :=
  let number := padLeft 3 (toString index) ++ " "
  match l.declaration with
  | some d => number ++ padRight 8 d.name ++ " sample " ++ d.url ++ "\n"
  | none =>
    if l.tokens.isEmpty then ""
    else
      number ++ padRight 8 l.instrument ++ " " ++ beats l.length ++ " beat(s), "
        ++ toString l.countInvalid ++ " invalid\n" ++ String.join (l.events.map eventRow)

/-- The listing of a composition. -/
def listing (c : Composition) : String :=
  String.join (c.lines.mapIdx lineRows) ++ "total: " ++ beats c.length ++ " beat(s)\n"

/-- A line as JSON. -/
def lineJson (index : Nat) (l : Line) : JsonValue :=
  JsonValue.sorted
    [("line", .natural index), ("instrument", .text l.instrument),
      ("beats", JsonValue.ofTicks l.length), ("invalid_tokens", .natural l.countInvalid),
      ("events", .list (l.events.map fun e => JsonValue.sorted (JsonValue.ofEvent e)))]

/-- The listing of a composition as JSON. -/
def jsonListing (c : Composition) : String :=
  JsonValue.pretty 0 (JsonValue.sorted
    [("max_beats", JsonValue.ofTicks c.length), ("lines", .list (c.lines.mapIdx lineJson))]) ++ "\n"

end Stave.Program
