import Stave.Mix.Stream
import Stave.Sound.Noise
import Stave.Sound.Settings
import Stave.Sound.Tuning

/-!
# Plucked strings

A string is a loop of samples as long as one period.  It starts as noise; each time round, a sample
becomes the slightly damped mean of itself and its neighbour.  The noise depends on the pitch alone,
so that a note sounds the same whenever it is played.
-/

namespace Stave

/-- A string that sounds. -/
structure PluckedString where
  period : Array Float
  /-- The place in the period that sounds next. -/
  place : Nat

namespace PluckedString

/-- Plucks a string; one whose period is shorter than two samples does not sound. -/
def pluck? (frequency : Float) (sampleRate : Nat) (noise : Noise) : Option PluckedString :=
  let length := Scalar.toNat (Scalar.round ((Scalar.ofNat sampleRate : Float) / frequency))
  if length < 2 then none
  else some ⟨(Mix.generate (fun noise _ => noise.draw) length noise).toArray, 0⟩

/-- The next sample of a string whose samples are multiplied by `damping` each time round. -/
def next (s : PluckedString) (damping : Float) : Float × PluckedString :=
  let ⟨period, place⟩ := s
  let sample := period.getD place 0.0
  let neighbour := (place + 1) % period.size
  (sample,
    ⟨period.setIfInBounds place ((sample + period.getD neighbour 0.0) * 0.5 * damping), neighbour⟩)

end PluckedString

/-- What a plucked instrument sounds like. -/
structure Pluck where
  seed : UInt64
  damping : Float
  /-- How many seconds a string rings after the note. -/
  ring : Float

namespace Pluck

/-- The strings of the pluck channel. -/
def standard (seed : UInt64) : Pluck := { seed, damping := 0.996, ring := 0.2 }

/-- The strings with a song's settings, of which only the release matters. -/
def withSettings (p : Pluck) (s : VoiceSettings) : Pluck :=
  { p with ring := (s.release.map Scalar.orZero).getD p.ring }

/-- The samples at the end of a sound over which it fades out. -/
def fade : Nat := 200

/-- The strings that sound some pitches. -/
def strings (p : Pluck) (pitches : List Nat) (sampleRate : Nat) : List PluckedString :=
  pitches.filterMap fun pitch =>
    PluckedString.pluck? (Tuning.frequency pitch) sampleRate
      (Noise.ofSeed (p.seed + UInt64.ofNat pitch))

/-- Adds the next samples of all strings. -/
def vibrate (damping : Float) : Float → List PluckedString → Float × List PluckedString
  | sum, [] => (sum, [])
  | sum, s :: rest =>
    let (sample, next) := s.next damping
    let (total, others) := vibrate damping (sum + sample) rest
    (total, next :: others)

/-- The sound of some pitches in a note of `duration` seconds. -/
def sound (p : Pluck) (pitches : List Nat) (velocity : Float32) (duration : Float)
    (sampleRate : Nat) : List Float32 :=
  match p.strings pitches sampleRate with
  | [] => []
  | strings =>
    let frames := Scalar.toNat ((duration + p.ring) * Scalar.ofNat sampleRate)
    let gain := velocity.toFloat * 0.7 / (Scalar.ofNat strings.length : Float).sqrt
    let step (state : List PluckedString) (i : Nat) : Float32 × List PluckedString :=
      let (raw, state) := vibrate p.damping 0.0 state
      let left := frames - i
      let level : Float := if left < fade then Scalar.ofNat left / Scalar.ofNat fade else 1.0
      ((raw * gain * level).toFloat32, state)
    Mix.generate step frames strings

end Pluck

end Stave
