/-!
# Settings of a rendering

What a rendering needs to know besides the notes.
-/

namespace Stave

/-- Settings of a rendering. -/
structure AudioSettings where
  sampleRate : Nat
  channels : Nat
  /-- Frames in a block. -/
  blockSize : Nat
  /-- Seconds rendered beyond the last beat. -/
  tail : Float
  /-- Where the random numbers of noises and strings begin. -/
  seed : UInt64
deriving Repr

namespace AudioSettings

/-- The settings that nobody has changed. -/
def default : AudioSettings :=
  { sampleRate := 44100, channels := 2, blockSize := 1024, tail := 1.0, seed := 42 }

end AudioSettings

end Stave
