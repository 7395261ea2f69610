import Stave.Wav.Bytes

/-!
# The format of a WAVE file

A WAVE file says in its format chunk how its samples are written.  There is a plain form for integers,
one for floats, and an extensible form for either, which also says how many of the bits of a sample
are used and which loudspeakers the channels are meant for.
-/

namespace Stave.Wav

/-- What can be wrong with the structure of a file. -/
inductive Defect
  | noRiffTag | noWaveTag | formatTooShort | noChannels | sampleTooSmall | inconsistentRates
  | bitsNotBytes | noBits | formatSize | integerBits | floatExtension | floatBits
  | extensionSize | noFormat | partialSample | partialFrame
deriving DecidableEq, Repr

namespace Defect

/-- The words for a defect. -/
def message : Defect → String
  | noRiffTag => "no RIFF tag found"
  | noWaveTag => "no WAVE tag found"
  | formatTooShort => "invalid fmt chunk size"
  | noChannels => "file contains zero channels"
  | sampleTooSmall => "sample bits exceeds size of sample"
  | inconsistentRates => "inconsistent fmt chunk"
  | bitsNotBytes => "bits per sample is not a multiple of 8"
  | noBits => "bits per sample is 0"
  | formatSize => "unexpected fmt chunk size"
  | integerBits => "bits per sample is not 8 or 16"
  | floatExtension => "unexpected WAVEFORMATEX size"
  | floatBits => "bits per sample is not 32"
  | extensionSize => "unexpected WAVEFORMATEXTENSIBLE size"
  | noFormat => "missing fmt chunk"
  | partialSample => "data chunk length is not a multiple of sample size"
  | partialFrame => "invalid data chunk length"

end Defect

/-- Why a file cannot be read or written. -/
inductive Fault
  | illFormed (defect : Defect)
  | unsupported
  /-- A sample has more bits than there is room for. -/
  | tooWide
  /-- The file ends too early. -/
  | ended
  /-- The samples to be written do not fill the last frame. -/
  | unfinishedFrame
  /-- The sound to be written has no channels or no frames in a second. -/
  | frameless
deriving DecidableEq, Repr

namespace Fault

/-- The words for a fault. -/
def message : Fault → String
  | illFormed defect => "Ill-formed WAVE file: " ++ defect.message
  | unsupported => "The wave format of the file is not supported."
  | tooWide => "The sample has more bits than the destination type."
  | ended => "Failed to read enough bytes."
  | unfinishedFrame =>
    "The number of samples written is not a multiple of the number of channels."
  | frameless => "A file needs a channel and a sample rate."

end Fault

/-- What the bits of a sample mean. -/
inductive Coding
  | integer | float
deriving DecidableEq, Repr

/-- How the samples of a file are written. -/
structure Format where
  channels : Nat
  sampleRate : Nat
  /-- The bytes that a sample takes. -/
  container : Nat
  /-- The bits of a sample that are used. -/
  bits : Nat
  coding : Coding
deriving DecidableEq, Repr

/-- The last twelve bytes of the identifiers of codings. -/
def identifierTail : List UInt8 :=
  [0x00, 0x00, 0x10, 0x00, 0x80, 0x00, 0x00, 0xaa, 0x00, 0x38, 0x9b, 0x71]

/-- The identifier of a coding in the extensible form. -/
def Coding.identifier : Coding → List UInt8
  | .integer => bytes 4 1 ++ identifierTail
  | .float => bytes 4 3 ++ identifierTail

namespace Format

/-- Fails where there are fewer than `count` bytes. -/
def need (count : Nat) (data : List UInt8) : Except Fault Unit :=
  if data.length < count then throw .ended else pure ()

/-- Fails with a defect where a condition holds. -/
def refuse (condition : Bool) (defect : Defect) : Except Fault Unit :=
  if condition then throw (.illFormed defect) else pure ()

/-- The plain form of integers.  Its longer variants are read as far as they say the same; the
result says how many bytes were read. -/
def readInteger (size : Nat) (data : List UInt8) (plain : Format) : Except Fault (Format × Nat) := do
  refuse (size ≠ 16 && size ≠ 18 && size ≠ 40) .formatSize
  if size = 16 then return (plain, 16)
  need 18 data
  refuse (plain.bits ≠ 8 && plain.bits ≠ 16 && plain.bits ≠ 24) .integerBits
  need size data
  return (plain, size)

/-- The plain form of floats. -/
def readFloat (size : Nat) (data : List UInt8) (plain : Format) : Except Fault (Format × Nat) := do
  refuse (size ≠ 16 && size ≠ 18) .formatSize
  if size = 18 then
    need 18 data
    refuse (field 16 2 data ≠ 0) .floatExtension
  refuse (plain.bits ≠ 32) .floatBits
  return ({ plain with coding := .float }, size)

/-- The extensible form. -/
def readExtensible (size : Nat) (data : List UInt8) (plain : Format) :
    Except Fault (Format × Nat) := do
  refuse (size < 40) .formatSize
  need 18 data
  refuse (field 16 2 data ≠ 22) .extensionSize
  need 40 data
  let used := field 18 2 data
  let identifier := (data.drop 24).take 16
  let bits := if used = 0 then plain.bits else used
  if identifier = Coding.integer.identifier then return ({ plain with bits }, 40)
  else if identifier = Coding.float.identifier then
    return ({ plain with bits, coding := .float }, 40)
  else throw .unsupported

/-- Reads a format chunk that announces `size` bytes, and says how many it has read. -/
def ofChunk (size : Nat) (data : List UInt8) : Except Fault (Format × Nat) := do
  refuse (size < 16) .formatTooShort
  need 16 data
  let channels := field 2 2 data
  let sampleRate := field 4 4 data
  let frameBytes := field 12 2 data
  let bits := field 14 2 data
  refuse (channels = 0) .noChannels
  let container := frameBytes / channels
  refuse (container * 8 < bits || Nat.pow 2 16 ≤ container * 8) .sampleTooSmall
  refuse (field 8 4 data ≠ frameBytes * sampleRate) .inconsistentRates
  refuse (bits % 8 ≠ 0) .bitsNotBytes
  refuse (bits = 0) .noBits
  let plain : Format := { channels, sampleRate, container, bits, coding := .integer }
  match field 0 2 data with
  | 1 => readInteger size data plain
  | 3 => readFloat size data plain
  | 0xfffe => readExtensible size data plain
  | _ => throw .unsupported

end Format

end Stave.Wav
