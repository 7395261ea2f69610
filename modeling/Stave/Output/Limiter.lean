import Stave.Mix.Stream
import Stave.Scalar

/-!
# The limiter

The limiter keeps a stream below a ceiling.  A frame that would exceed it is made quieter as a whole,
so that its channels keep their proportions, and the level recovers gradually afterwards.
-/

namespace Stave

/-- The state of a limiter. -/
structure Limiter (β : Type) where
  ceiling : β
  /-- How much of a reduction of the level is left after one frame. -/
  release : β
  /-- The factor that the last frame was multiplied by. -/
  gain : β

namespace Limiter

/-- A limiter for a sample rate: a reduction falls to its `e`th part within a twentieth of a second. -/
def new (ceiling : Float32) (sampleRate : Nat) : Limiter Float32 :=
  let rate : Float32 := Scalar.ofNat (max sampleRate 1)
  { ceiling, release := (-1.0 / (0.05 * rate)).exp, gain := 1.0 }

/-- The ceiling of the output. -/
def outputCeiling : Float32 := 0.95

/-- The limiter of the output. -/
def standard (sampleRate : Nat) : Limiter Float32 := new outputCeiling sampleRate

variable {β : Type} [Scalar β]

/-- Forgets a reduction of the level. -/
def reset (l : Limiter β) : Limiter β := { l with gain := Scalar.ofNat 1 }

/-- The greatest distance from zero among some samples. -/
def peak (frame : List β) : β :=
  frame.foldl (fun most s => Scalar.larger most (Scalar.magnitude s)) (Scalar.ofNat 0)

/-- The greatest factor, up to one, with which a frame stays below the ceiling. -/
def target (l : Limiter β) (frame : List β) : β :=
  let peak := peak frame
  if l.ceiling < peak then l.ceiling / peak else Scalar.ofNat 1

/-- The factor for a frame.  It falls at once and rises gradually. -/
def nextGain (l : Limiter β) (frame : List β) : β :=
  let target := l.target frame
  if target < l.gain then target else target + (l.gain - target) * l.release

/-- Limits one frame. -/
def frame (l : Limiter β) (samples : List β) : List β × Limiter β :=
  let gain := l.nextGain samples
  (samples.map fun s => Scalar.clamp (s * gain) (-l.ceiling) l.ceiling, { l with gain })

/-- Limits an interleaved stream. -/
def process (l : Limiter β) (channels : Nat) (stream : List β) : List β × Limiter β :=
  let (limited, l) := Mix.thread frame (Mix.frames (max channels 1) stream) l
  (limited.flatten, l)

end Limiter

end Stave
