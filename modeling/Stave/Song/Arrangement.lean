import Stave.Score.Composition
import Stave.Song.Overrides
import Stave.Song.Section

/-!
# Arrangements

A song document is arranged as flat text: a line for each declared sample, then a line for each
instrument and each of the lines that it plays at once.  Where a section leaves an instrument out,
rests as long as the section take its place, so that all lines stay together.
-/

namespace Stave.Song

open Yaml

/-- A song document as flat text. -/
structure Arrangement where
  text : List Char
  /-- The samples that the text declares. -/
  samples : List Declaration
  overrides : Overrides

/-- The keys that make a text a song document. -/
def documentKeys : List (List Char) :=
  ["bpm", "volumes", "instruments", "samples", "sections", "song"].map String.toList

/-- Whether a line begins with one of those keys and a colon. -/
def hasDocumentKey (line : List Char) : Bool :=
  documentKeys.any fun key =>
    key.isPrefixOf line
      && ((line.drop key.length).dropWhile fun c => c == ' ' || c == '\t').head? == some ':'

/-- Whether any line of a text makes it a song document. -/
def isDocument (text : List Char) : Bool := (Text.lines text).any hasDocumentKey

/-! ## Lines of equal length -/

/-- That many rests. -/
def restsFor (count : Nat) : List Char := [' '].intercalate (List.replicate count ['-'])

/-- A pattern with rests behind it up to a length; a part of a beat counts as a beat. -/
def fill (pattern : List Char) (length : Ticks) : List Char :=
  let pattern := Text.trim pattern
  let missing := length.wholeBeats - (lengthOf pattern).wholeBeats
  if missing = 0 then pattern
  else if pattern.isEmpty then restsFor missing
  else pattern ++ ' ' :: restsFor missing

/-- What a line of an instrument plays while a section lasts. -/
def piece (instrument : String) (line : Nat) (s : Section) : List Char :=
  match s.pattern? instrument line with
  | some pattern => fill pattern.toList s.length
  | none => restsFor s.length.wholeBeats

/-- What a line of an instrument plays section by section.  Sections without length and pieces
without text leave nothing. -/
def pieces (played : List Section) (instrument : String) (line : Nat) : List (List Char) :=
  ((played.filter fun s => decide (Ticks.zero < s.length)).map (piece instrument line)).filter
    fun p => !p.isEmpty

/-- The notation of a line over the whole song. -/
def flatNotation (played : List Section) (instrument : String) (line : Nat) : List Char :=
  [' '].intercalate (pieces played instrument line)

/-- The line of an instrument over the whole song. -/
def flatLine (played : List Section) (instrument : String) (line : Nat) : List Char :=
  instrument.toList ++ ':' :: ' ' :: flatNotation played instrument line

/-- Counts the lines of an instrument: as many as it has in its widest section. -/
def widen (instrument : String) (lines : Nat) : List (String × Nat) → List (String × Nat)
  | [] => [(instrument, lines)]
  | (name, count) :: rest =>
    if name = instrument then (name, max count lines) :: rest
    else (name, count) :: widen instrument lines rest

/-- The instruments of the song in the order of their first part, with their lines. -/
def channels (played : List Section) : List (String × Nat) :=
  (played.flatMap Section.parts).foldl
    (fun found p => widen p.instrument p.patterns.length found) []

/-- The samples that a document declares.  One without a usable address is left out. -/
def samplesOf (value : Option Value) : List Declaration :=
  (Overrides.entries value).filterMap fun (key, url) => do
    let name ← Overrides.channelName? key
    let url := Text.trim ((← url.text?).toList)
    if isUrl url then some ⟨name, String.ofList url⟩ else none

/-- The line that declares a sample. -/
def sampleLine (d : Declaration) : List Char := d.name.toList ++ ':' :: ' ' :: d.url.toList

/-- The lines of an arrangement: an instrument, and the number of the line among those of the
instrument. -/
def staves (played : List Section) : List (String × Nat) :=
  (channels played).flatMap fun (instrument, count) =>
    (List.range count).map fun line => (instrument, line)

/-! ## Documents -/

/-- The entries of a text that is a song document. -/
def rootOf? (text : List Char) : Option (List (Value × Value)) :=
  if isDocument text then
    match Value.ofText? (clarify text) with
    | some (.mapping root) => some root
    | _ => none
  else none

/-- The sections of a document in the order in which they are played. -/
def playedIn (root : List (Value × Value)) : List Section :=
  order (Value.lookup "song" root) (Section.all (Value.lookup "sections" root))

/-- The samples of a document. -/
def samplesIn (root : List (Value × Value)) : List Declaration :=
  samplesOf (Value.lookup "samples" root)

namespace Arrangement

/-- Arranges the root of a document. -/
def ofRoot (root : List (Value × Value)) : Arrangement :=
  let played := playedIn root
  let lines := (staves played).map fun (instrument, line) => flatLine played instrument line
  { text := ['\n'].intercalate ((samplesIn root).map sampleLine ++ lines)
    samples := samplesIn root
    overrides := Overrides.ofRoot root }

/-- Arranges a text that is a song document. -/
def ofText? (text : List Char) : Option Arrangement := (rootOf? text).map ofRoot

end Arrangement

/-- What a text, song document or not, compiles to. -/
structure Compiled where
  composition : Composition
  overrides : Overrides
  /-- The flat text of a song document. -/
  expanded : Option (List Char)

/-- Compiles a song document by way of its flat text, and any other text as it is. -/
def Compiled.ofText (text : List Char) (registry : Registry) : Compiled × Registry :=
  match Arrangement.ofText? text with
  | some arrangement =>
    let (composition, registry) := Composition.ofText arrangement.text registry
    (⟨composition, arrangement.overrides, some arrangement.text⟩, registry)
  | none =>
    let (composition, registry) := Composition.ofText text registry
    (⟨composition, Overrides.none, none⟩, registry)

end Stave.Song
