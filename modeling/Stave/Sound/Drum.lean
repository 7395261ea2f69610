import Stave.Mix.Overlay
import Stave.Mix.Stream
import Stave.Sample.Recording
import Stave.Sound.Noise
import Stave.Sound.Oscillator

/-!
# Drums

The built-in percussion is made of falling sines and of noise.  Each drum is rendered once, as a
recording that lasts a fixed time.
-/

namespace Stave

/-- The built-in drums. -/
inductive Drum
  | kick | snare | hihat | clap
deriving DecidableEq, Repr

namespace Drum

/-- All drums, in the order of their seeds. -/
def all : List Drum := [kick, snare, hihat, clap]

/-- The channel that plays a drum. -/
def channel : Drum → String
  | kick => "kick"
  | snare => "snare"
  | hihat => "hihat"
  | clap => "clap"

/-- How long a drum sounds. -/
def seconds : Drum → Float
  | kick => 0.25
  | snare => 0.2
  | hihat => 0.08
  | clap => 0.15

/-- A sound's level after `part` of some time in which it falls by `e` to the power of `speed`. -/
def decay (part speed : Float) : Float := (-part * speed).exp

/-! ## The sounds -/

/-- A sine that falls from 150 to 50 hertz. -/
def kickSound (rate : Float) (frames : Nat) : List Float32 :=
  Mix.generate
    (fun phase i =>
      let part : Float := Scalar.ofNat i / Scalar.ofNat frames
      let frequency := 50.0 + 100.0 * decay part 8.0
      let phase := phase + frequency / rate
      ((Waveform.sine.level phase * decay part 10.0).toFloat32, phase))
    frames 0.0

/-- A sine of 180 hertz and noise, each with its own decay. -/
def snareSound (rate : Float) (frames : Nat) (noise : Noise) : List Float32 :=
  Mix.generate
    (fun (phase, noise) i =>
      let part : Float := Scalar.ofNat i / Scalar.ofNat frames
      let phase := phase + 180.0 / rate
      let body := Waveform.sine.level phase * decay part 15.0
      let (sample, noise) := noise.draw
      (((body + sample * decay part 12.0) * 0.5).toFloat32, (phase, noise)))
    frames (0.0, noise)

/-- High noise that ends soon. -/
def hihatSound (frames : Nat) (noise : Noise) : List Float32 :=
  Mix.generate
    (fun (before, filteredBefore, noise) i =>
      let part : Float := Scalar.ofNat i / Scalar.ofNat frames
      let (sample, noise) := noise.draw
      let filtered := 0.85 * (filteredBefore + sample - before)
      ((filtered * decay part 20.0 * 0.6).toFloat32, (sample, filtered, noise)))
    frames (0.0, 0.0, noise)

/-- One burst of a clap. -/
def burst (length count : Nat) (noise : Noise) : List Float32 × Noise :=
  Mix.run
    (fun noise i =>
      let level := decay (Scalar.ofNat i / Scalar.ofNat length) 15.0
      let (sample, noise) := noise.draw
      ((sample * level * 0.6).toFloat32, noise))
    count noise

/-- The noise that follows the bursts of a clap, made dull by following itself slowly. -/
def rustle (rate : Float) (count : Nat) (noise : Noise) : List Float32 :=
  let smoothing := 1200.0 * 0.5 / rate
  Mix.generate
    (fun (level, noise) i =>
      let (sample, noise) := noise.draw
      let level := level + (sample - level) * smoothing
      ((level * decay (Scalar.ofNat i / rate) 18.0 * 0.4).toFloat32, (level, noise)))
    count (0.0, noise)

/-- Three bursts of noise one after the other, and dull noise.  All end with the last frame. -/
def clapSound (rate : Float) (frames : Nat) (noise : Noise) : List Float32 :=
  let length := Scalar.toNat (0.01 * rate)
  let silent : List Float32 := List.replicate frames 0.0
  let (bursts, noise) := ([0.0, 0.015, 0.030] : List Float).foldl
    (fun (made, noise) offset =>
      let start := Scalar.toNat (offset * rate)
      let (samples, noise) := burst length (min length (frames - start)) noise
      (Mix.overlay made start samples, noise))
    (silent, noise)
  let start := Scalar.toNat (0.04 * rate)
  Mix.overlay bursts start (rustle rate (frames - start) noise)

/-- The sound of a drum. -/
def sound (d : Drum) (sampleRate : Nat) (seed : UInt64) : List Float32 :=
  let rate : Float := Scalar.ofNat sampleRate
  let frames := Scalar.toNat (rate * d.seconds)
  let noise := Noise.ofSeed seed
  match d with
  | kick => kickSound rate frames
  | snare => snareSound rate frames noise
  | hihat => hihatSound frames noise
  | clap => clapSound rate frames noise

/-- The drum of a channel. -/
def ofChannel? (name : String) : Option Drum := all.find? fun d => d.channel = name

/-- The recordings of all drums.  Each drum has a seed of its own. -/
def kit (sampleRate : Nat) (seed : UInt64) : Bank :=
  all.zipIdx.map fun (d, i) => (d.channel, ⟨d.sound sampleRate (seed + UInt64.ofNat i), sampleRate⟩)

end Drum

end Stave
