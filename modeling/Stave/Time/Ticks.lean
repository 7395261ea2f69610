import Stave.Scalar

/-!
# Musical time

Positions and lengths are whole numbers of ticks, 960 to the beat, so that beats and dotted beats
are exact.  The count is a 64-bit word: sums wrap around, differences stop at zero.
-/

namespace Stave

/-- A musical position or length. -/
structure Ticks where
  count : UInt64
deriving DecidableEq, Repr, Inhabited

namespace Ticks

/-- Ticks in one beat. -/
def perBeat : Nat := 960

/-- The ticks that a natural number counts. -/
def ofNat (n : Nat) : Ticks := ⟨UInt64.ofNat n⟩

/-- The number of ticks. -/
def toNat (t : Ticks) : Nat := t.count.toNat

/-- The start of a line. -/
def zero : Ticks := ofNat 0

/-- One beat. -/
def beat : Ticks := ofNat perBeat

/-- A beat and a half. -/
def dotted : Ticks := ofNat (perBeat + perBeat / 2)

/-- A whole number of beats. -/
def ofBeats (beats : Nat) : Ticks := ofNat (beats * perBeat)

instance : Add Ticks := ⟨fun a b => ⟨a.count + b.count⟩⟩

/-- The time from `b` to `a`, nothing when `b` is the later one. -/
instance : Sub Ticks := ⟨fun a b => ofNat (a.toNat - b.toNat)⟩

instance : LT Ticks := ⟨fun a b => a.count < b.count⟩

instance : LE Ticks := ⟨fun a b => a.count ≤ b.count⟩

instance : DecidableLT Ticks := fun a b => inferInstanceAs (Decidable (a.count < b.count))

instance : DecidableLE Ticks := fun a b => inferInstanceAs (Decidable (a.count ≤ b.count))

instance : Ord Ticks := ⟨fun a b => compare a.count b.count⟩

theorem le_trans {a b c : Ticks} (hab : a ≤ b) (hbc : b ≤ c) : a ≤ c := UInt64.le_trans hab hbc

theorem le_total (a b : Ticks) : a ≤ b ∨ b ≤ a := UInt64.le_total a.count b.count

/-- The sum of a list of lengths. -/
def sum (lengths : List Ticks) : Ticks := lengths.foldl (· + ·) zero

/-- The longest of a list of lengths. -/
def maximum (lengths : List Ticks) : Ticks := lengths.foldl (fun a b => if a < b then b else a) zero

/-- Whole beats that cover the length, a part of a beat counting as one. -/
def wholeBeats (t : Ticks) : Nat := (t.toNat + (perBeat - 1)) / perBeat

/-- The position within a loop of the given length; a loop without length changes nothing. -/
def wrap (t length : Ticks) : Ticks :=
  if length.count = 0 then t else ⟨t.count % length.count⟩

section Measured

variable {α : Type} [Scalar α]

/-- The nearest number of ticks to a number of beats, which counts as zero when negative. -/
def ofMeasuredBeats (beats : α) : Ticks :=
  ofNat (Scalar.toNat (Scalar.round (Scalar.orZero beats * Scalar.ofNat perBeat)))

/-- The length in beats. -/
def toBeats (t : Ticks) : α := Scalar.ofNat t.toNat / Scalar.ofNat perBeat

/-- The length in seconds at a tempo in beats per minute. -/
def toSeconds (t : Ticks) (bpm : α) : α := t.toBeats * Scalar.ofNat 60 / bpm

/-- The length in audio frames, to the nearest frame, at a tempo and a sample rate. -/
def toFrames (t : Ticks) (bpm : α) (sampleRate : Nat) : Nat :=
  Scalar.toNat (Scalar.round
    (Scalar.ofNat t.toNat * Scalar.ofNat 60 * Scalar.ofNat sampleRate
      / (Scalar.ofNat perBeat * bpm)))

end Measured

end Ticks

end Stave
