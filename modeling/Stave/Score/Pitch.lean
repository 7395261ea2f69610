/-!
# Pitches

A pitch is a letter from A to G, an accidental and an octave from 0 to 9.  Its number counts
semitones so that middle C, written `C4`, is 60; only the numbers from 0 to 127 are in use.
-/

namespace Stave

/-- The letters that name pitches. -/
inductive Letter
  | c | d | e | f | g | a | b
deriving DecidableEq, Repr, Inhabited

namespace Letter

/-- The letter in upper case. -/
def toChar : Letter → Char
  | c => 'C' | d => 'D' | e => 'E' | f => 'F' | g => 'G' | a => 'A' | b => 'B'

/-- Reads a letter in upper case. -/
def ofChar? : Char → Option Letter
  | 'C' => some c | 'D' => some d | 'E' => some e | 'F' => some f | 'G' => some g
  | 'A' => some a | 'B' => some b | _ => none

/-- Semitones above the C below. -/
def semitones : Letter → Nat
  | c => 0 | d => 2 | e => 4 | f => 5 | g => 7 | a => 9 | b => 11

theorem ofChar?_toChar (l : Letter) : ofChar? l.toChar = some l := by
  cases l <;> rfl

end Letter

/-- A semitone up or down. -/
inductive Accidental
  | sharp | flat
deriving DecidableEq, Repr, Inhabited

namespace Accidental

/-- How the accidental is written. -/
def toChar : Accidental → Char
  | sharp => '#' | flat => 'b'

/-- The semitone it adds or takes away. -/
def semitones : Accidental → Int
  | sharp => 1 | flat => -1

end Accidental

/-- A written pitch. -/
structure Pitch where
  letter : Letter
  accidental : Option Accidental
  octave : Fin 10
deriving DecidableEq, Repr, Inhabited

namespace Pitch

/-- The digit that writes an octave. -/
def octaveDigit (octave : Fin 10) : Char := Char.ofNat ('0'.toNat + octave.val)

/-- The name: letter in upper case, accidental, octave. -/
def name (p : Pitch) : String :=
  String.ofList
    (p.letter.toChar :: (p.accidental.map Accidental.toChar).toList ++ [octaveDigit p.octave])

/-- The number of the pitch, when it is in use. -/
def number? (p : Pitch) : Option Nat :=
  let semitones : Int :=
    (p.octave.val + 1) * 12 + p.letter.semitones + (p.accidental.map Accidental.semitones).getD 0
  if 0 ≤ semitones ∧ semitones ≤ 127 then some semitones.toNat else none

end Pitch

end Stave
