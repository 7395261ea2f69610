import Stave.Instrument
import Stave.Score.Registry

/-!
# Routing

A router knows which instrument plays a channel and how loud the channel is.  A channel without an
instrument is silent.
-/

namespace Stave

/-- Instruments and volumes by channel. -/
structure Router where
  routes : Named Instrument
  gains : Named Float32

namespace Router

/-- The factor that a change of level in decibels stands for. -/
def gainOfDecibels (db : Float) : Float32 := (Float.pow 10.0 (db / 20.0)).toFloat32

/-- The router without channels. -/
def empty : Router := ⟨[], []⟩

/-- Whether a channel has an instrument. -/
def plays (r : Router) (channel : String) : Bool := (Named.get? channel r.routes).isSome

/-- Gives a channel an instrument. -/
def assign (r : Router) (channel : String) (instrument : Instrument) : Router :=
  { r with routes := Named.set channel instrument r.routes }

/-- Sets the volume of a channel. -/
def setVolume (r : Router) (channel : String) (db : Float) : Router :=
  { r with gains := Named.set channel (gainOfDecibels db) r.gains }

/-- The factor of a channel's volume. -/
def gain (r : Router) (channel : String) : Float32 := (Named.get? channel r.gains).getD 1.0

/-- Whether the event has the filter that it passes. -/
def hasFilter (r : Router) (e : NoteEvent) (sampleRate : Nat) : Bool :=
  (Named.get? e.instrument r.routes).all fun i => i.hasFilter e sampleRate

/-- Whether the event can be played. -/
def canPlay (r : Router) (e : NoteEvent) (sampleRate : Nat) (channels : Nat := 2)
    (bpm : Float := 120.0) : Bool :=
  (Named.get? e.instrument r.routes).all fun i => i.canPlay e sampleRate channels bpm

/-- The sound of an event. -/
def render (r : Router) (e : NoteEvent) (context : Conditions Float) : List Float32 :=
  match Named.get? e.instrument r.routes with
  | none => []
  | some instrument => (instrument.render e context).map (· * r.gain e.instrument)

/-! ## Building -/

/-- The instrument of a built-in pitched channel. -/
def pitched? (channel : String) (settings : VoiceSettings) (seed : UInt64) : Option Instrument :=
  match channel with
  | "piano" => some (.patch "piano" (Patch.piano.withSettings settings))
  | "lead" => some (.patch "lead" (Patch.lead.withSettings settings))
  | "pad" => some (.patch "pad" (Patch.pad.withSettings settings))
  | "bass" => some (.bass (Bass.standard.withSettings settings))
  | "pluck" => some (.pluck ((Pluck.standard seed).withSettings settings))
  | _ => none

/-- The instrument of a channel that plays a recording, as long as the bank has one for it. -/
def recorded? (channel : String) (bank : Bank) : Option Instrument :=
  if bank.contains channel then some (.drumKit bank) else none

/-- The instrument of a channel. -/
def instrumentOf? (registry : Registry) (voices : Named VoiceSettings) (bank : Bank) (seed : UInt64)
    (channel : String) : Option Instrument :=
  (registry.get? channel).bind fun c =>
    match c.kind with
    | .pitched => pitched? channel ((Named.get? channel voices).getD VoiceSettings.none) seed
    | .percussion => recorded? channel bank
    | .sample => recorded? channel bank

/-- The router of some channels. -/
def ofChannels (channels : List String) (registry : Registry) (voices : Named VoiceSettings)
    (volumes : Named Float) (bank : Bank) (seed : UInt64) : Router :=
  let routed := channels.foldl
    (fun (r : Router) channel =>
      match instrumentOf? registry voices bank seed channel with
      | none => r
      | some instrument => r.assign channel instrument)
    empty
  volumes.foldl (fun (r : Router) (channel, db) => r.setVolume channel db) routed

end Router

end Stave
