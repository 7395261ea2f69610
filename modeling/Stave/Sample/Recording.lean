import Stave.Scalar
import Stave.Song.Named

/-!
# Recordings

A recording is a sound for one channel at a known sample rate.  Recordings that are ready to be
played are kept in a bank, by the name of the channel that plays them.
-/

namespace Stave

/-- A sound for one channel. -/
structure Recording where
  samples : List Float32
  sampleRate : Nat

namespace Recording

/-- How long a recording sounds. -/
def seconds (r : Recording) : Float := Scalar.ofNat r.samples.length / Scalar.ofNat r.sampleRate

end Recording

/-- Recordings by name. -/
abbrev Bank := Named Recording

namespace Bank

/-- Whether there is a recording of a name. -/
def contains (bank : Bank) (name : String) : Bool := (Named.get? name bank).isSome

/-- Adds the recordings of another bank, which replace those of the same name. -/
def merge (bank other : Bank) : Bank := Named.setAll bank other

end Bank

end Stave
