import Stave.Scalar
import Stave.Sound.Settings

/-!
# Oscillators

An oscillator walks through the periods of a waveform.  Its phase says how much of the period has
passed.
-/

namespace Stave

/-- Half the circumference of the unit circle. -/
def pi : Float := 3.141592653589793

namespace Waveform

/-- The level of a waveform at a phase; it is between minus one and one as long as the phase is
between zero and one. -/
def level (w : Waveform) (phase : Float) : Float :=
  match w with
  | sine => Float.sin (phase * 2.0 * pi)
  | sawtooth => 2.0 * phase - 1.0
  | square => if phase < 0.5 then 1.0 else -1.0
  | triangle =>
    if phase < 0.25 then 4.0 * phase
    else if phase < 0.75 then 2.0 - 4.0 * phase
    else 4.0 * phase - 4.0

end Waveform

/-- An oscillator's place in the period, and how far each sample moves it. -/
structure Phase where
  position : Float
  step : Float

namespace Phase

/-- The start of a period at `frequency` hertz. -/
def start (frequency : Float) (sampleRate : Nat) : Phase :=
  ⟨0.0, frequency / Scalar.ofNat sampleRate⟩

/-- What is left of a number without its whole part, which is nearer to zero. -/
def fraction (x : Float) : Float := x - (if x < 0.0 then x.ceil else x.floor)

/-- One sample later.  At the end of a period the next one begins. -/
def next (p : Phase) : Phase := { p with position := fraction (p.position + p.step) }

end Phase

end Stave
