import Stave.Decimal.Layout
import Stave.Time.Event

/-!
# JSON text

Values as JSON text: compact on one line, or one item per line with two spaces of indentation for
each level.  Text escapes only what it must.
-/

namespace Stave

/-- A value to be written. -/
inductive JsonValue
  | bool (b : Bool)
  | natural (n : Nat)
  | float (x : Float)
  | text (s : String)
  | list (items : List JsonValue)
  | object (members : List (String × JsonValue))

namespace JsonValue

/-- How doubles are written. -/
def layout : Decimal.Layout :=
  { positional := fun point => decide (-5 < point ∧ point ≤ 16)
    wholeMark := ".0"
    exponentPlus := "+"
    nan := "null"
    infinity := "null" }

/-- A character within a text. -/
def escape (c : Char) : List Char :=
  match c with
  | '"' => ['\\', '"']
  | '\\' => ['\\', '\\']
  | '\n' => ['\\', 'n']
  | '\r' => ['\\', 'r']
  | '\t' => ['\\', 't']
  | '\x08' => ['\\', 'b']
  | '\x0c' => ['\\', 'f']
  | c =>
    if c.toNat < 0x20 then
      let digits := Nat.toDigits 16 c.toNat
      ['\\', 'u'] ++ List.replicate (4 - digits.length) '0' ++ digits
    else [c]

/-- A text in quotes. -/
def quote (s : String) : String := "\"" ++ String.ofList (s.toList.flatMap escape) ++ "\""

/-- Indentation. -/
def indent (level : Nat) : String := String.ofList (List.replicate (2 * level) ' ')

mutual

/-- The value on one line. -/
def compact : JsonValue → String
  | .bool b => if b then "true" else "false"
  | .natural n => toString n
  | .float x => layout.write x
  | .text s => quote s
  | .list items => "[" ++ ",".intercalate (compactItems items) ++ "]"
  | .object members => "\x7b" ++ ",".intercalate (compactMembers members) ++ "\x7d"

/-- The items of a list. -/
def compactItems : List JsonValue → List String
  | [] => []
  | item :: rest => compact item :: compactItems rest

/-- The members of an object. -/
def compactMembers : List (String × JsonValue) → List String
  | [] => []
  | (name, value) :: rest => (quote name ++ ":" ++ compact value) :: compactMembers rest

end

/-- Items on lines of their own between two brackets; nothing stands between brackets without
items. -/
def bracket (level : Nat) (left right : String) (items : List String) : String :=
  if items.isEmpty then left ++ right
  else
    left ++ "\n" ++ ",\n".intercalate (items.map fun item => indent (level + 1) ++ item) ++ "\n"
      ++ indent level ++ right

mutual

/-- The value over several lines, at a level of indentation. -/
def pretty (level : Nat) : JsonValue → String
  | .bool b => if b then "true" else "false"
  | .natural n => toString n
  | .float x => layout.write x
  | .text s => quote s
  | .list items => bracket level "[" "]" (prettyItems (level + 1) items)
  | .object members => bracket level "\x7b" "\x7d" (prettyMembers (level + 1) members)

/-- The items of a list. -/
def prettyItems (level : Nat) : List JsonValue → List String
  | [] => []
  | item :: rest => pretty level item :: prettyItems level rest

/-- The members of an object. -/
def prettyMembers (level : Nat) : List (String × JsonValue) → List String
  | [] => []
  | (name, value) :: rest => (quote name ++ ": " ++ pretty level value) :: prettyMembers level rest

end

/-- A length or position, in beats. -/
def ofTicks (t : Ticks) : JsonValue := .float t.toBeats

/-- A note event. -/
def ofEvent (e : NoteEvent) : List (String × JsonValue) :=
  [("notes", .list (e.notes.map .text)), ("beat", ofTicks e.beat),
    ("duration", ofTicks e.duration), ("line_index", .natural e.lineIndex),
    ("token_index", .natural e.tokenIndex), ("soft", .bool e.soft),
    ("instrument", .text e.instrument)]

/-- The members of an object ordered by their names. -/
def sorted (members : List (String × JsonValue)) : JsonValue :=
  .object (members.mergeSort fun a b => decide (a.1 ≤ b.1))

end JsonValue

end Stave
