import Stave.Score.Pitch
import Stave.Time.Ticks

/-!
# Notes

A note is written as a letter, an accidental, an octave digit, a dot and a tie, of which only the
letter is required.  A lower case letter makes the note soft, the octave is 4 unless written, a dot
makes it half as long again, and a tie (`~`) lets it ring into what follows.
-/

namespace Stave

/-- A note as written. -/
structure Note where
  pitch : Pitch
  dotted : Bool
  tied : Bool
  soft : Bool
deriving DecidableEq, Repr, Inhabited

namespace Note

/-- The octave of a note that does not write one. -/
def defaultOctave : Fin 10 := 4

/-- Takes an accidental off the front of a text. -/
def splitAccidental : List Char → Option Accidental × List Char
  | '#' :: rest => (some .sharp, rest)
  | 'b' :: rest => (some .flat, rest)
  | text => (none, text)

/-- Takes an octave digit off the front of a text. -/
def splitOctave : List Char → Fin 10 × List Char
  | [] => (defaultOctave, [])
  | c :: rest =>
    if c.isDigit then (Fin.ofNat 10 (c.toNat - '0'.toNat), rest) else (defaultOctave, c :: rest)

/-- Takes a mark off the front of a text and says whether it was there. -/
def splitMark (mark : Char) : List Char → Bool × List Char
  | [] => (false, [])
  | c :: rest => if c = mark then (true, rest) else (false, c :: rest)

/-- Reads a note that takes up the whole text. -/
def read? : List Char → Option Note
  | [] => none
  | c :: rest =>
    (Letter.ofChar? c.toUpper).bind fun letter =>
      let (accidental, rest) := splitAccidental rest
      let (octave, rest) := splitOctave rest
      let (dotted, rest) := splitMark '.' rest
      let (tied, rest) := splitMark '~' rest
      if rest.isEmpty then
        some { pitch := { letter, accidental, octave }, dotted, tied, soft := c.isLower }
      else none

/-- The written form, with the octave always in it. -/
def written (n : Note) : List Char :=
  (if n.soft then n.pitch.letter.toChar.toLower else n.pitch.letter.toChar)
    :: (n.pitch.accidental.map Accidental.toChar).toList
    ++ [Pitch.octaveDigit n.pitch.octave]
    ++ (if n.dotted then ['.'] else [])
    ++ (if n.tied then ['~'] else [])

/-- The length of the note by itself. -/
def duration (n : Note) : Ticks := if n.dotted then Ticks.dotted else Ticks.beat

/-- The number of the pitch that a text names, when it names one that is in use. -/
def pitchNumber? (name : String) : Option Nat := (read? name.toList).bind fun n => n.pitch.number?

end Note

end Stave
