import Stave.Proofs.Mix.Spreading
import Stave.Proofs.Playback.Pumping
import Stave.Proofs.Time.Measuring

/-!
# Playing on several channels

A scheduler for one channel and one for several, which have the same on each of them, go through the
same blocks: each plays what the other one plays, with every sample once per channel.  Onsets are
counted in samples by a word of 64 bits, which does not wrap around, because no onset is far behind the
start of its block.  Only a note that has room on one channel, but not on several, tells them apart.
-/

namespace Stave

/-- The same conditions with another number of channels. -/
def Conditions.onChannels {α : Type} (channels : Nat) (c : Conditions α) : Conditions α :=
  { c with channels }

/-- A block for one channel, on several. -/
def Block.onChannels {α β : Type} (channels : Nat) (b : Block α β) : Block α β :=
  { b with samples := Mix.spread channels b.samples, context := b.context.onChannels channels }

/-- A scheduler for one channel, on several. -/
def Scheduler.onChannels {α β : Type} (channels : Nat) (s : Scheduler α β) : Scheduler α β :=
  { s with channels, tail := Mix.spread channels s.tail }

variable {α β : Type} {channels : Nat} {render : NoteEvent → Conditions α → List β}

namespace Scheduler

variable [Scalar α] {s : Scheduler α β}

end Scheduler

/-! ## Sessions -/

namespace Rendering

variable {router : Router} {block : Block Float Float32}

end Rendering

namespace Captured

/-- What a recorder has, on several channels. -/
def onChannels (channels : Nat) (c : Captured) : Captured :=
  { c with blocks := c.blocks.map (Mix.spread channels) }

end Captured

namespace Session

/-- A session for one channel, on several. -/
def onChannels (channels : Nat) (s : Session Captured) : Session Captured :=
  { s with
    settings := { s.settings with channels }
    scheduler := s.scheduler.onChannels channels
    sink := s.sink.onChannels channels }

/-- A session for one channel whose clock, when it is running, keeps time. -/
structure IsMono (s : Session Captured) : Prop where
  settings_eq : s.settings.channels = 1
  scheduler_eq : s.scheduler.channels = 1
  keepsTime : s.scheduler.transport.playing = true → s.scheduler.KeepsTime

variable {channels : Nat} {s : Session Captured}

theorem IsMono.feed (h : s.IsMono) : (s.feed Captured.sink).2.IsMono := by
  rcases Bool.eq_false_or_eq_true s.scheduler.transport.playing with hplaying | hstopped
  · rw [feed_of_playing hplaying]
    split
    · exact ⟨h.settings_eq, h.scheduler_eq, fun hagain => nomatch hagain⟩
    · split
      · exact h
      · split
        · rw [Scheduler.nextBlock_of_playing hplaying]
          exact ⟨h.settings_eq, h.scheduler_eq, fun _ => (h.keepsTime hplaying).next _ _⟩
        · exact h
  · rw [feed_of_stopped hstopped]
    exact h

section Starting

variable (composition : Composition) (registry : Registry) (bpm : Float) (looping : Bool)
  (volumes : Named Float) (voices : Named VoiceSettings)

/-- What a session begins to play, it plays from the start at a tempo. -/
theorem IsMono.start (h : s.IsMono) (hsampleRate : s.scheduler.transport.sampleRate < 2 ^ 32)
    (hblockSize : s.scheduler.blockSize < 2 ^ 32) :
    (s.start Captured.sink composition registry bpm looping volumes voices).2.IsMono := by
  rw [start_eq]
  cases hrefusal : refusal? Captured.sink s composition bpm with
  | some e => exact ⟨h.settings_eq, h.scheduler_eq, fun hplaying => nomatch hplaying⟩
  | none =>
    refine ⟨h.settings_eq, h.scheduler_eq, fun _ => ⟨hsampleRate, hblockSize, ?_, fun _ => ?_, ?_⟩⟩
    · have htempo := (sounds_of_not_refused Captured.sink s composition bpm hrefusal).2
      rw [isTempo, Bool.and_eq_true] at htempo
      exact exists_hasValue htempo.1 (of_decide_eq_true htempo.2)
    · exact .inr ⟨0, zero_le_one, by exact_mod_cast hasValue_ofNat (n := 0) (by decide)⟩
    · intro length hlooped
      exact of_decide_eq_true (Option.filter_eq_some_iff.mp hlooped).2

end Starting

end Session

end Stave
