import Stave.Mix.Stream
import Stave.Sound.Envelope
import Stave.Sound.Lowpass
import Stave.Sound.Tuning

/-!
# Synthesizer patches

A patch sounds each pitch with two oscillators that are slightly out of tune with each other, passes
their sum through a low-pass filter and shapes it with an envelope.
-/

namespace Stave

/-- What a patch sounds like. -/
structure Patch where
  waveform : Waveform
  /-- How far the second oscillator is out of tune, in hundredths of a step. -/
  detune : Float
  envelope : Envelope Float
  /-- The cutoff of the filter in hertz; without one there is no filter. -/
  cutoff : Option Float
  resonance : Float
  /-- The level of a single pitch. -/
  level : Float

namespace Patch

/-! ## The patches of the pitched channels -/

/-- A soft keyboard with a fast attack. -/
def piano : Patch :=
  { waveform := .triangle, detune := 3.0, envelope := ⟨0.005, 0.3, 0.35, 0.4⟩,
    cutoff := some 5000.0, resonance := Lowpass.flatResonance, level := 0.5 }

/-- A bright lead. -/
def lead : Patch :=
  { waveform := .square, detune := 6.0, envelope := ⟨0.01, 0.1, 0.7, 0.15⟩,
    cutoff := some 3000.0, resonance := Lowpass.flatResonance, level := 0.3 }

/-- A wide pad that comes and goes slowly. -/
def pad : Patch :=
  { waveform := .sawtooth, detune := 12.0, envelope := ⟨0.15, 0.2, 0.6, 0.4⟩,
    cutoff := some 2500.0, resonance := Lowpass.flatResonance, level := 0.4 }

/-- The patch with a song's settings. -/
def withSettings (p : Patch) (s : VoiceSettings) : Patch :=
  { p with
    waveform := s.oscillator.getD p.waveform
    envelope := p.envelope.withSettings s
    cutoff := s.cutoff <|> p.cutoff
    resonance := s.resonance.getD p.resonance }

/-! ## Sound -/

/-- The sum of the oscillators of all pitches, and their phases one sample later. -/
def oscillate (waveform : Waveform) (phases : List (Phase × Phase)) :
    Float × List (Phase × Phase) :=
  (phases.foldl
    (fun sum (p, q) => sum + (waveform.level p.position + waveform.level q.position) * 0.5) 0.0,
    phases.map fun (p, q) => (p.next, q.next))

/-- The sound of some frequencies that are held for `duration` seconds. -/
def sound (p : Patch) (frequencies : List Float) (velocity : Float32) (duration : Float)
    (sampleRate : Nat) : List Float32 :=
  let rate : Float := Scalar.ofNat sampleRate
  let ratio := Tuning.ratio p.detune
  let phases := frequencies.map fun f =>
    (Phase.start f sampleRate, Phase.start (f * ratio) sampleRate)
  let filter := p.cutoff.map fun cutoff => Lowpass.design cutoff p.resonance sampleRate
  let gain := p.level / (Scalar.ofNat frequencies.length : Float).sqrt * velocity.toFloat
  let step (state : List (Phase × Phase) × Lowpass.Memory) (i : Nat) :=
    let (raw, phases) := oscillate p.waveform state.1
    let (filtered, memory) := match filter with
      | some f => f.pass state.2 raw
      | none => (raw, state.2)
    let level := p.envelope.amplitude duration (Scalar.ofNat i / rate)
    ((filtered * level * gain).toFloat32, (phases, memory))
  Mix.generate step (Scalar.toNat (p.envelope.length duration * rate)) (phases, Lowpass.silence)

end Patch

end Stave
