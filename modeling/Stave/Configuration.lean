import Stave.Playback.Settings
import Stave.Scalar
import Stave.Text.Blank
import Stave.Yaml.Value

/-!
# Configuration

A configuration file is a YAML mapping that sets some of the defaults.  Each setting is read straight
from its written scalar, so that text in quotes is never a number and a whole number may not have a
fraction.  Unknown settings are passed over whatever they hold.
-/

namespace Stave

open Yaml

/-- The defaults of a user. -/
structure Configuration where
  /-- Beats per minute. -/
  bpm : Float
  sampleRate : Nat
  channels : Nat
  blockSize : Nat
  /-- Seconds. -/
  tail : Float
  seed : UInt64
  /-- Whether playing starts over at the end. -/
  looping : Bool
deriving Repr

/-- Why there is no configuration. -/
inductive ConfigurationError
  /-- The file cannot be read. -/
  | unreadable
  /-- The file is not a configuration. -/
  | malformed
deriving DecidableEq, Repr

namespace Configuration

/-- The configuration without a file. -/
def default : Configuration :=
  { bpm := 120.0, sampleRate := 44100, channels := 2, blockSize := 1024, tail := 1.0, seed := 42,
    looping := true }

/-! ## Reading single settings -/

/-- The text of a scalar that is no quoted text: a plain one, or a literal block with the tag of what
is asked for. -/
def bareText? (kind : String) : Node → Option String
  | .scalar tag text style =>
    if style == .plain || (style == .literal && tag == some (Tag.standard kind)) then
      some text
    else none
  | _ => none

/-- Reads a number. -/
def readFloat? (node : Node) : Option Float :=
  (bareText? "float" node).bind fun s => Number.float? s.toList

/-- Reads a whole number up to a limit. -/
def readNat? (limit : Nat) (node : Node) : Option Nat :=
  (bareText? "int" node).bind fun s =>
    match s.toList with
    | '-' :: _ => none
    | text => ((Number.word? text).map Int.toNat).filter (· ≤ limit)

/-- Reads a truth value. -/
def readBool? (node : Node) : Option Bool := (bareText? "bool" node).bind Yaml.bool?

/-! ## Reading a configuration -/

/-- The names of the settings. -/
def names : List String :=
  ["bpm", "sample_rate", "channels", "block_size", "tail_secs", "seed", "looping"]

/-- Reads one setting; a name that is not among the settings changes nothing. -/
def readSetting? (c : Configuration) (name : String) (node : Node) : Option Configuration :=
  match name with
  | "bpm" => (readFloat? node).map fun bpm => { c with bpm }
  | "sample_rate" => (readNat? (Nat.pow 2 32 - 1) node).map fun sampleRate => { c with sampleRate }
  | "channels" => (readNat? (Nat.pow 2 16 - 1) node).map fun channels => { c with channels }
  | "block_size" => (readNat? (Nat.pow 2 32 - 1) node).map fun blockSize => { c with blockSize }
  | "tail_secs" => (readFloat? node).map fun tail => { c with tail }
  | "seed" => (readNat? (Nat.pow 2 64 - 1) node).map fun seed => { c with seed := UInt64.ofNat seed }
  | "looping" => (readBool? node).map fun looping => { c with looping }
  | _ => some c

/-- Reads the entries of a configuration.  No setting may be given twice. -/
def readEntries? (deref : Node → Option Node) (seen : List String) (c : Configuration) :
    List (Node × Node) → Option Configuration
  | [] => some c
  | (key, value) :: rest =>
    match deref key with
    | some (.scalar _ name _) =>
      if !names.contains name then readEntries? deref seen c rest
      else if seen.contains name then none
      else do
        let value ← deref value
        let c ← readSetting? c name value
        readEntries? deref (name :: seen) c rest
    | _ => none

/-- Reads the configuration of a document.  One that is left empty sets nothing. -/
def ofDocument? (d : Document) : Option Configuration :=
  let deref (node : Node) : Option Node :=
    ((Value.follow d.aliases node).run 0).map Prod.fst
  match d.root with
  | .mapping _ entries => readEntries? deref [] default entries
  | .scalar _ "" .plain => some default
  | _ => none

/-- Reads a configuration from a text.  A text without content sets nothing. -/
def ofText (text : List Char) : Except ConfigurationError Configuration :=
  if text.all Text.isBlank then .ok default
  else match Document.ofText? text with
    | none => .error .malformed
    | some none => .ok default
    | some (some document) =>
      match ofDocument? document with
      | none => .error .malformed
      | some c => .ok c

/-- The settings of a rendering.  There is always a channel, and time does not run backwards. -/
def audioSettings (c : Configuration) : AudioSettings :=
  { sampleRate := max c.sampleRate 1
    channels := max c.channels 1
    blockSize := max c.blockSize 1
    tail := Scalar.orZero c.tail
    seed := c.seed }

end Configuration

end Stave
