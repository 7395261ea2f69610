import Stave.Score.Line
import Stave.Song.Repeats
import Stave.Yaml.Value

/-!
# Sections and their order

A section has patterns for some of the instruments, several for one instrument when several lines
play it at once.  It is as long as its longest pattern.  The song says in which order sections are
played and how often; without such a list they are played once in the order of the document.
-/

namespace Stave.Song

open Yaml

/-- What one instrument plays in a section. -/
structure Part where
  instrument : String
  /-- One pattern for each line that plays at the same time. -/
  patterns : List String
deriving DecidableEq, Repr

/-- A section of a song. -/
structure Section where
  name : String
  parts : List Part
deriving DecidableEq, Repr

/-- How long a pattern takes. -/
def lengthOf (pattern : List Char) : Ticks := (eventsOf (tokensOf pattern) 0 "").2

namespace Section

/-- The length of the longest pattern. -/
def length (s : Section) : Ticks :=
  Ticks.maximum ((s.parts.flatMap Part.patterns).map fun p => lengthOf p.toList)

/-- What an instrument plays on one of its lines. -/
def pattern? (s : Section) (instrument : String) (line : Nat) : Option String :=
  (s.parts.find? fun p => p.instrument == instrument).bind fun p => p.patterns[line]?

/-- Adds patterns to what an instrument plays. -/
def addPart (instrument : String) (patterns : List String) : List Part → List Part
  | [] => [⟨instrument, patterns⟩]
  | p :: rest =>
    if p.instrument = instrument then { p with patterns := p.patterns ++ patterns } :: rest
    else p :: addPart instrument patterns rest

/-- The instrument that a key stands for. -/
def instrumentName (key : String) : String :=
  Text.lowercase (String.ofList (Text.trim (readRepeat key.toList).1))

/-- The patterns of a value: the scalars of a list, or a single scalar. -/
def patternsOf : Value → List String
  | .sequence items => items.filterMap Value.scalarText?
  | v => v.scalarText?.toList

/-- Reads the parts of a section.  An instrument without patterns has no part. -/
def partsOf (entries : List (Value × Value)) : List Part :=
  entries.foldl
    (fun parts (key, value) =>
      match key.scalarText?, patternsOf value with
      | none, _ => parts
      | some _, [] => parts
      | some key, patterns => addPart (instrumentName key) patterns parts)
    []

/-- Reads the sections of a document. -/
def all (value : Option Value) : List Section :=
  ((value.bind Value.entries?).getD []).filterMap fun (key, body) =>
    key.scalarText?.map fun name => ⟨name, partsOf (body.entries?.getD [])⟩

end Section

/-! ## The order of the song -/

/-- The most times that one entry can repeat its section. -/
def mostRepeats : Nat := 10000

/-- The digits of a repeat: an `x` behind a blank, or a star, and then digits up to the end. -/
def repeatDigits? (text : List Char) : Option (List Char) :=
  let blanks := text.takeWhile Text.isBlank
  let digits? (rest : List Char) : Option (List Char) :=
    let digits := rest.dropWhile Text.isBlank
    if !digits.isEmpty && digits.all Text.isDecimalDigit then some digits else none
  match text.drop blanks.length with
  | c :: rest =>
    if c == '*' || ((c == 'x' || c == 'X') && !blanks.isEmpty) then digits? rest else none
  | [] => none

/-- Splits an entry at the first place behind which it ends or only a repeat follows.  The name
before it must be on one line. -/
def nameAndRepeat? (name : List Char) : List Char → Option (List Char × Option (List Char))
  | [] => if name.isEmpty then none else some (name.reverse, none)
  | c :: rest =>
    match if name.isEmpty then none else repeatDigits? (c :: rest) with
    | some digits => some (name.reverse, some digits)
    | none => if c == '\n' then none else nameAndRepeat? (c :: name) rest

/-- The number of a repeat.  Digits of other scripts have no value here and count as too many. -/
def repeatCount (digits : List Char) : Nat :=
  if digits.all Char.isDigit then min (Text.natOfDigits digits) mostRepeats else mostRepeats

/-- Reads an entry of the song: the name of a section and how often it is played. -/
def songItem? (entry : List Char) : Option (List Char × Nat) :=
  (nameAndRepeat? [] (Text.trim entry)).map fun (name, digits) =>
    (Text.trim name, (digits.map repeatCount).getD 1)

/-- The entries of the song, when the document has a list of them. -/
def entriesOf? : Option Value → Option (List String)
  | some (.sequence items) => some (items.filterMap Value.scalarText?)
  | some (.text s) => some [s]
  | some (.number n) => some [n.write]
  | _ => none

/-- The sections in the order in which they are played.  Of several sections with one name the first
counts; an entry without a section plays nothing. -/
def order (value : Option Value) (sections : List Section) : List Section :=
  match entriesOf? value with
  | none => sections
  | some entries =>
    entries.flatMap fun entry =>
      match songItem? entry.toList with
      | none => []
      | some (name, count) =>
        match sections.find? fun s => s.name == String.ofList name with
        | none => []
        | some found => List.replicate count found

end Stave.Song
