import Stave.Score.Note

/-!
# Tuning

Equal temperament: an octave doubles the frequency and has twelve equal steps.  Pitch 69, the A above
middle C, has 440 hertz.
-/

namespace Stave.Tuning

/-- The frequency of a numbered pitch in hertz. -/
def frequency (pitch : Nat) : Float := 440.0 * Float.exp2 ((Scalar.ofNat pitch - 69.0) / 12.0)

/-- The frequency of a named pitch. -/
def frequencyOf? (name : String) : Option Float := (Note.pitchNumber? name).map frequency

/-- The ratio of two frequencies that are `cents` hundredths of a step apart. -/
def ratio (cents : Float) : Float := Float.exp2 (cents / 1200.0)

end Stave.Tuning
