import Stave.Scalar
import Stave.Wav.Format

/-!
# Writing WAVE files

Sound is written with sixteen bits per sample.  Up to two channels need the plain form only; for more
the extensible form names the loudspeakers, in their usual order.
-/

namespace Stave.Wav

/-- A sample as a whole number of sixteen bits; what is too loud is cut off. -/
def quantize (sample : Float32) : Int16 :=
  Int16.ofInt (Scalar.toInt (Scalar.clamp sample (-1.0) 1.0 * 32767.0))

/-- The loudspeakers of some channels: one bit for each of the eighteen that have a name. -/
def loudspeakers (channels : Nat) : Nat := Nat.pow 2 (min channels 18) - 1

/-- The bytes that a second takes.  The header has four bytes for them, and what does not fit is
lost. -/
def byteRate (sampleRate channels : Nat) : Nat := sampleRate * channels * 2 % Nat.pow 2 32

/-- The bytes that a frame takes, found by sharing those of a second out among its frames.  Where a
second takes too many bytes to be counted, the frames come out too small. -/
def frameBytes (sampleRate channels : Nat) : Nat := byteRate sampleRate channels / sampleRate

/-- The format chunk of a file. -/
def formatChunk (sampleRate channels : Nat) : List UInt8 :=
  let plain (code : Nat) : List UInt8 :=
    bytes 2 code ++ bytes 2 channels ++ bytes 4 sampleRate ++ bytes 4 (byteRate sampleRate channels)
      ++ bytes 2 (frameBytes sampleRate channels) ++ bytes 2 16
  if channels ≤ 2 then tag "fmt " ++ bytes 4 16 ++ plain 1
  else tag "fmt " ++ bytes 4 40 ++ plain 0xfffe ++ bytes 2 22 ++ bytes 2 16
    ++ bytes 4 (loudspeakers channels) ++ Coding.integer.identifier

/-- Everything before the first sample of a file with `size` bytes of samples. -/
def preamble (sampleRate channels size : Nat) : List UInt8 :=
  let format := formatChunk sampleRate channels
  tag "RIFF" ++ bytes 4 (4 + format.length + 8 + size) ++ tag "WAVE" ++ format ++ tag "data"
    ++ bytes 4 size

/-- Writes interleaved samples as a file. -/
def encode (samples : List Float32) (sampleRate channels : Nat) : Except Fault (List UInt8) :=
  if sampleRate = 0 ∨ channels = 0 then throw .frameless
  else if samples.length % channels ≠ 0 then throw .unfinishedFrame
  else pure (preamble sampleRate channels (samples.length * 2)
    ++ samples.flatMap fun s => bytes 2 (quantize s).toUInt16.toNat)

end Stave.Wav
