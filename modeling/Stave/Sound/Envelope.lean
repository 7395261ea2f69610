import Stave.Scalar
import Stave.Sound.Settings

/-!
# Envelopes

An envelope shapes the loudness of a note.  It rises to full level, falls to the level at which the
note is held, and falls to silence once the note is let go, from whatever level it had reached.
-/

namespace Stave

/-- Attack, decay and release in seconds; sustain is a level. -/
structure Envelope (α : Type) where
  attack : α
  decay : α
  sustain : α
  release : α

namespace Envelope

variable {α : Type} [Scalar α]

/-- Replaces what is set.  A time below zero counts as none and a level is kept between zero and
one. -/
def override (e : Envelope α) (attack decay sustain release : Option α) : Envelope α :=
  { attack := (attack.map Scalar.orZero).getD e.attack
    decay := (decay.map Scalar.orZero).getD e.decay
    sustain := (sustain.map fun s => Scalar.clamp s (Scalar.ofNat 0) (Scalar.ofNat 1)).getD e.sustain
    release := (release.map Scalar.orZero).getD e.release }

/-- The level `t` seconds into a note that is still held. -/
@[specialize]
def held (e : Envelope α) (t : α) : α :=
  if t < e.attack then t / e.attack
  else if t < e.attack + e.decay then
    Scalar.ofNat 1 - (t - e.attack) / e.decay * (Scalar.ofNat 1 - e.sustain)
  else e.sustain

/-- The level `t` seconds into a note that is held for `duration` seconds. -/
@[specialize]
def amplitude (e : Envelope α) (duration t : α) : α :=
  if t < Scalar.ofNat 0 then Scalar.ofNat 0
  else if t < duration then e.held t
  else if e.release ≤ t - duration then Scalar.ofNat 0
  else e.held duration * (Scalar.ofNat 1 - (t - duration) / e.release)

/-- The seconds for which a note that is held for `duration` seconds sounds. -/
def length (e : Envelope α) (duration : α) : α := duration + e.release

/-- The envelope of a voice whose settings a song has changed. -/
def withSettings (e : Envelope Float) (s : VoiceSettings) : Envelope Float :=
  e.override s.attack s.decay s.sustain s.release

end Envelope

end Stave
