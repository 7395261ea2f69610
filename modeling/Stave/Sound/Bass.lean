import Stave.Mix.Stream
import Stave.Sound.Envelope
import Stave.Sound.Lowpass
import Stave.Sound.Tuning

/-!
# The bass

The bass sounds one pitch with two oscillators slightly out of tune and a third one an octave below,
all passed through a low-pass filter.
-/

namespace Stave

/-- What a bass sounds like. -/
structure Bass where
  waveform : Waveform
  /-- How far the second oscillator is out of tune, in hundredths of a step. -/
  detune : Float
  envelope : Envelope Float
  /-- The cutoff of the filter in hertz. -/
  cutoff : Float
  resonance : Float

namespace Bass

/-- The bass of the bass channel. -/
def standard : Bass :=
  { waveform := .sawtooth, detune := 7.0, envelope := ⟨0.005, 0.1, 0.8, 0.05⟩, cutoff := 800.0,
    resonance := Lowpass.flatResonance }

/-- The bass with a song's settings. -/
def withSettings (b : Bass) (s : VoiceSettings) : Bass :=
  { b with
    waveform := s.oscillator.getD b.waveform
    envelope := b.envelope.withSettings s
    cutoff := s.cutoff.getD b.cutoff
    resonance := s.resonance.getD b.resonance }

/-- The three oscillators of a bass and the memory of its filter. -/
structure State where
  main : Phase
  detuned : Phase
  below : Phase
  memory : Lowpass.Memory

/-- The sound of a frequency that is held for `duration` seconds. -/
def sound (b : Bass) (frequency : Float) (velocity : Float32) (duration : Float)
    (sampleRate : Nat) : List Float32 :=
  let rate : Float := Scalar.ofNat sampleRate
  let filter := Lowpass.design b.cutoff b.resonance sampleRate
  let start : State :=
    { main := Phase.start frequency sampleRate
      detuned := Phase.start (frequency * Tuning.ratio b.detune) sampleRate
      below := Phase.start (frequency / 2.0) sampleRate
      memory := Lowpass.silence }
  let step (s : State) (i : Nat) : Float32 × State :=
    let pair := (b.waveform.level s.main.position + b.waveform.level s.detuned.position) * 0.35
    let octave := Waveform.sine.level s.below.position * 0.3
    let (filtered, memory) := filter.pass s.memory (pair + octave)
    let level := b.envelope.amplitude duration (Scalar.ofNat i / rate)
    ((filtered * level * velocity.toFloat).toFloat32,
      { main := s.main.next, detuned := s.detuned.next, below := s.below.next, memory })
  Mix.generate step (Scalar.toNat (b.envelope.length duration * rate)) start

end Bass

end Stave
