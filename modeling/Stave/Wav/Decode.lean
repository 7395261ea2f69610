import Stave.Mix.Stream
import Stave.Scalar
import Stave.Wav.Format

/-!
# Reading WAVE files

A WAVE file is a row of chunks.  All chunks before the samples are looked at, and those that are not
known are skipped; nothing after the samples matters.
-/

namespace Stave.Wav

/-- Looks through the chunks for the samples, and finds their format and how many bytes they take.
`format` is the last one seen. -/
def findSamples (format : Option Format) (data : List UInt8) :
    Except Fault (Format × Nat × List UInt8) :=
  if _h : data.length < 8 then throw .ended
  else
    let name := data.take 4
    let size := field 4 4 data
    let rest := data.drop 8
    if name = tag "fmt " then
      match Format.ofChunk size rest with
      | .error fault => throw fault
      | .ok (found, read) => findSamples (some found) (rest.drop read)
    else if name = tag "fact" then findSamples format (rest.drop 4)
    else if name = tag "data" then
      match format with
      | none => throw (.illFormed .noFormat)
      | some format => pure (format, size, rest)
    else if rest.length < size then throw .ended
    else findSamples format (rest.drop size)
termination_by data.length
decreasing_by all_goals simp only [List.length_drop]; omega

/-- The number that a sample's bytes write, with a sign.  Bytes of a single byte have none: they
count from the bottom. -/
def wholeValue (container bits : Nat) (sample : List UInt8) : Int :=
  let n := number sample
  if container = 1 then n - 128 else Int.bmod n (Nat.pow 2 bits)

/-- A sample of integers between minus one and one. -/
def integerSample (container bits : Nat) (sample : List UInt8) : Float32 :=
  Scalar.ofInt (wholeValue container bits sample) / Scalar.ofNat (Nat.pow 2 (bits - 1))

/-- A sample that is written as a float. -/
def floatSample (sample : List UInt8) : Float32 := Float32.ofBits (UInt32.ofNat (number sample))

/-- How a sample of a format is read, if it can be. -/
def sampleReader (format : Format) : Except Fault (List UInt8 → Float32) :=
  match format.coding, format.container, format.bits with
  | .integer, 1, 8 => pure (integerSample 1 8)
  | .integer, 2, 16 => pure (integerSample 2 16)
  | .integer, 3, 24 => pure (integerSample 3 24)
  | .integer, 4, 24 => pure (integerSample 4 24)
  | .integer, 4, 32 => pure (integerSample 4 32)
  | .float, 4, 32 => pure floatSample
  | _, container, _ => throw (if 4 < container then .tooWide else .unsupported)

/-- The format of a file, how many samples it says to have, and the bytes from the first sample
on. -/
def header (data : List UInt8) : Except Fault (Format × Nat × List UInt8) := do
  Format.need 4 data
  Format.refuse (data.take 4 ≠ tag "RIFF") .noRiffTag
  Format.need 12 data
  Format.refuse ((data.drop 8).take 4 ≠ tag "WAVE") .noWaveTag
  let (format, size, rest) ← findSamples none (data.drop 12)
  Format.refuse (size % format.container ≠ 0) .partialSample
  Format.refuse (size / format.container % format.channels ≠ 0) .partialFrame
  return (format, size / format.container, rest)

/-- The samples behind the header, with those of one frame beside each other. -/
def samples (format : Format) (count : Nat) (rest : List UInt8) : Except Fault (List Float32) := do
  if count = 0 then return []
  let read ← sampleReader format
  let size := count * format.container
  Format.need size rest
  return (Mix.frames format.container (rest.take size)).map read

end Stave.Wav
