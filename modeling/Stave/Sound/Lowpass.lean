import Stave.Scalar
import Stave.Sound.Oscillator

/-!
# The low-pass filter

A second-order resonant low-pass filter.  Its cutoff is kept between 20 hertz and nine twentieths of
the sample rate, where the filter is stable; a sample rate that leaves no room between the two has no
such filter.
-/

namespace Stave

/-- The weights of a filter: of the sample that comes in and the two before it, and of the two
samples that went out last. -/
structure Lowpass where
  input : Float
  input1 : Float
  input2 : Float
  output1 : Float
  output2 : Float

/-- What a filter remembers from one sample to the next. -/
structure Lowpass.Memory where
  first : Float
  second : Float

namespace Lowpass

/-- The lowest cutoff in hertz. -/
def lowest : Float := 20.0

/-- The highest cutoff in hertz. -/
def highest (sampleRate : Nat) : Float := Scalar.ofNat sampleRate * 0.45

/-- Whether there is a filter for a sample rate. -/
def existsAt (sampleRate : Nat) : Bool := decide (lowest ≤ highest sampleRate)

/-- The resonance at which the filter has no peak. -/
def flatResonance : Float := 0.7071067811865476

/-- A filter with a cutoff in hertz; the resonance is at least a tenth. -/
def design (cutoff resonance : Float) (sampleRate : Nat) : Lowpass :=
  let rate : Float := Scalar.ofNat sampleRate
  let frequency := Scalar.clamp cutoff lowest (highest sampleRate)
  let resonance := if resonance > 0.1 then resonance else 0.1
  let omega := 2.0 * pi * frequency / rate
  let alpha := omega.sin / (2.0 * resonance)
  let scale := 1.0 + alpha
  let middle := (1.0 - omega.cos) / scale
  { input := middle / 2.0
    input1 := middle
    input2 := middle / 2.0
    output1 := -2.0 * omega.cos / scale
    output2 := (1.0 - alpha) / scale }

/-- The memory of a filter that nothing has passed. -/
def silence : Memory := ⟨0.0, 0.0⟩

/-- Passes one sample. -/
def pass (f : Lowpass) (memory : Memory) (x : Float) : Float × Memory :=
  let y := f.input * x + memory.first
  (y, ⟨f.input1 * x - f.output1 * y + memory.second, f.input2 * x - f.output2 * y⟩)

end Lowpass

end Stave
