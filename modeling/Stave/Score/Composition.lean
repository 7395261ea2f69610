import Stave.Score.Line

/-!
# Compositions

A composition is the compiled lines of a text.  All declarations are collected before any line is
compiled, so that a sample channel may be used above the line that declares it.
-/

namespace Stave

/-- The compiled lines of a text. -/
structure Composition where
  lines : List Line
deriving DecidableEq, Repr

namespace Composition

/-- A composition without lines. -/
def empty : Composition := ⟨[]⟩

/-- The longest line, or nothing when no line sounds.  Rests and text without a meaning count. -/
def length (c : Composition) : Ticks :=
  if c.lines.any Line.sounds then Ticks.maximum (c.lines.map Line.length) else Ticks.zero

/-- All events, line by line. -/
def events (c : Composition) : List NoteEvent := c.lines.flatMap Line.events

/-- Whether there is nothing to play. -/
def isEmpty (c : Composition) : Bool := c.length == Ticks.zero

/-- The sample channels that the text declares, line by line. -/
def declarations (c : Composition) : List Declaration := c.lines.filterMap Line.declaration

/-- The channels that sound, in the order of their first line. -/
def channels (c : Composition) : List String :=
  ((c.lines.filter Line.sounds).map Line.instrument).foldl
    (fun seen name => if seen.contains name then seen else seen ++ [name]) []

/-- Compiles a text.  The registry comes out with the sample channels that this text declares. -/
def ofText (text : List Char) (registry : Registry) : Composition × Registry :=
  let lines := Text.lines text
  let (_, registry) := registry.adopt (lines.filterMap Heading.declaration?)
  (⟨lines.mapIdx registry.lineOf⟩, registry)

end Composition

end Stave
