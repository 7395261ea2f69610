import Stave.Sample.Recording
import Stave.Sample.Resample
import Stave.Score.Registry
import Stave.Wav.Decode

/-!
# Loading recordings

The text declares recordings by their addresses.  Each is fetched and read by itself, so that one
that fails leaves the others as they are.
-/

namespace Stave

/-- Why there is no recording. -/
inductive RecordingError
  | wav (fault : Wav.Fault)
  /-- The file holds no sample. -/
  | empty
  /-- Integers of a size that is not read. -/
  | depth (bits : Nat)
  /-- The file cannot be read, for a reason that the system gives. -/
  | unreadable (reason : String)
  /-- The file cannot be downloaded. -/
  | unreachable (reason : String)
  /-- The address is neither that of a file nor one to download from. -/
  | scheme (url : String)
  /-- The file has no sample rate, so that its length at another rate is unbounded. -/
  | rateless
deriving DecidableEq, Repr

namespace RecordingError

/-- The words for an error. -/
def message : RecordingError → String
  | wav fault => "WAV error: " ++ fault.message
  | empty => "WAV file contains no samples"
  | depth bits => "unsupported format: " ++ toString bits ++ "-bit integer"
  | unreadable reason => "I/O error: " ++ reason
  | unreachable reason => "fetch failed: " ++ reason
  | scheme url => "unsupported URL scheme in " ++ url
  | rateless => "the file has no sample rate"

end RecordingError

/-! ## Recordings from files -/

namespace Recording

/-- The mean of the samples of a frame. -/
def mean (frame : List Float32) : Float32 :=
  frame.foldl (· + ·) 0.0 / Scalar.ofNat frame.length

/-- Reads a file as a recording at a sample rate. -/
def ofWav (file : List UInt8) (sampleRate : Nat) : Except RecordingError Recording := do
  let (format, count, rest) ← (Wav.header file).mapError .wav
  if format.coding = .integer && (format.bits = 0 || 32 < format.bits) then
    throw (.depth format.bits)
  let samples ← (Wav.samples format count rest).mapError .wav
  if samples.isEmpty then throw .empty
  let sound := (Mix.frames format.channels samples).map mean
  if format.sampleRate = sampleRate then return ⟨sound, sampleRate⟩
  else if format.sampleRate = 0 && 1 < sound.length then throw .rateless
  else return ⟨Resample.linear Float.toFloat32 sound format.sampleRate sampleRate, sampleRate⟩

end Recording

/-! ## Addresses -/

/-- Where the files of addresses come from. -/
abbrev Source := String → Except RecordingError (List UInt8)

/-- What an address points to. -/
inductive Address
  | file (path : String)
  | download
  | other
deriving DecidableEq, Repr

namespace Address

/-- What a text means as an address.  The scheme is written in lower case. -/
def ofUrl (url : String) : Address :=
  let text := url.toList
  if "file://".toList.isPrefixOf text then file (String.ofList (text.drop 7))
  else if "http://".toList.isPrefixOf text || "https://".toList.isPrefixOf text then download
  else other

end Address

namespace Source

/-- Reads files where they are and downloads nothing. -/
def offline (readBytes : String → Except String (List UInt8)) : Source := fun url =>
  match Address.ofUrl url with
  | .file path => (readBytes path).mapError .unreadable
  | .download =>
    throw (.unreachable (url ++ ": built without the " ++ "\x60http\x60" ++ " feature"))
  | .other => throw (.scheme url)

end Source

/-! ## Loading -/

/-- What has been loaded. -/
structure Loaded where
  bank : Bank
  /-- The channels whose recordings could not be loaded, in the order of their declarations. -/
  failed : List String

namespace Loaded

/-- The addresses by name.  A name keeps its first place and its last address. -/
def addresses (declared : List Declaration) : Named String :=
  declared.foldl (fun found d => Named.set d.name d.url found) []

/-- Fetches and reads one recording. -/
def fetch (source : Source) (sampleRate : Nat) (url : String) : Except RecordingError Recording :=
  (source url).bind fun file => Recording.ofWav file sampleRate

/-- Loads all declared recordings. -/
def ofDeclarations (declared : List Declaration) (source : Source) (sampleRate : Nat) : Loaded :=
  let results := (addresses declared).map fun (name, url) => (name, fetch source sampleRate url)
  { bank := results.filterMap fun (name, result) => result.toOption.map fun r => (name, r)
    failed := results.filterMap fun (name, result) => if result.isOk then none else some name }

end Loaded

end Stave
