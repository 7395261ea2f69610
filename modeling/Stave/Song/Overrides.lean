import Stave.Song.Named
import Stave.Sound.Settings
import Stave.Text.Blank
import Stave.Yaml.Value

/-!
# Overrides of a song document

Beside its notes a song document sets the tempo, the level of channels and the sound of instruments.
An entry that makes no sense is left out and does not disturb the others.
-/

namespace Stave

open Yaml

/-! ## The settings of a voice -/

namespace VoiceSettings

/-- A number, or nothing for null.  The outer option is empty for a value of another kind. -/
def number? (value : Option Value) : Option (Option Float) :=
  match value with
  | Option.none => some Option.none
  | some .null => some Option.none
  | some v => v.float?.map some

/-- The shape of an oscillator: its name, or its name as a tag of null. -/
def waveform? (value : Option Value) : Option (Option Waveform) :=
  match value with
  | Option.none => some Option.none
  | some .null => some Option.none
  | some (.text name) => (Waveform.ofName? name).map some
  | some (.tagged name .null) => (Waveform.ofName? name).map some
  | some _ => Option.none

/-- Whether a value is text, with or without a tag. -/
def isText (v : Value) : Bool := v.text?.isSome

/-- Reads the settings of a voice.  Unknown keys are passed over, but every key must be text and
every known one must have a value of its kind. -/
def ofValue? (v : Value) : Option VoiceSettings := do
  let entries ← v.entries?
  if !entries.all fun e => isText e.1 then Option.none
  else
    let fields := entries.map fun (key, value) => ((key.text?).getD "", value)
    let single? (name : String) : Option (Option Value) :=
      match fields.filter fun f => f.1 == name with
      | [] => some Option.none
      | [(_, value)] => some (some value)
      | _ => Option.none
    let oscillator ← waveform? (← single? "oscillator")
    let attack ← number? (← single? "attack")
    let decay ← number? (← single? "decay")
    let sustain ← number? (← single? "sustain")
    let release ← number? (← single? "release")
    let cutoff ← number? (← single? "filter")
    let resonance ← number? (← single? "filterQ")
    some { oscillator, attack, decay, sustain, release, cutoff, resonance }

end VoiceSettings

namespace Song

/-- What a song document sets beside its notes. -/
structure Overrides where
  /-- Beats per minute. -/
  bpm : Option Float
  /-- Level offsets in decibels by channel. -/
  volumes : Named Float
  /-- Settings of instruments by channel. -/
  voices : Named VoiceSettings

namespace Overrides

/-- Nothing set. -/
def none : Overrides := ⟨Option.none, [], []⟩

/-- The name of a channel that a key stands for. -/
def channelName? (key : Value) : Option String :=
  key.scalarText?.map fun s => Text.lowercase (Text.trimString s)

/-- The entries of a mapping, if the value is one. -/
def entries (value : Option Value) : List (Value × Value) := (value.bind Value.entries?).getD []

/-- The entries that have a channel and a value. -/
def byChannel {α : Type} (read : Value → Option α) (value : Option Value) : Named α :=
  Named.setAll [] ((entries value).filterMap fun (key, v) => do
    let name ← channelName? key
    let v ← read v
    some (name, v))

/-- Reads the overrides of a song document. -/
def ofRoot (root : List (Value × Value)) : Overrides :=
  { bpm := ((Value.lookup "bpm" root).bind Value.float?).filter fun bpm =>
      bpm.isFinite && decide (0 < bpm)
    volumes := byChannel (fun v => v.float?.filter Float.isFinite) (Value.lookup "volumes" root)
    voices := byChannel VoiceSettings.ofValue? (Value.lookup "instruments" root) }

end Overrides

end Song

end Stave
