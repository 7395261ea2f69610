import Stave.Output.Limiter

/-!
# The player

The player fills the buffers of a sound device.  It keeps the samples that it was sent and has not
played, and passes what it plays through a limiter.  Samples that have been played stay in memory
until there are enough of them to be worth removing.
-/

namespace Stave

/-- What the player is told. -/
inductive Command (β : Type)
  /-- Play these samples after those sent before. -/
  | samples (samples : List β)
  /-- Drop everything and fall silent. -/
  | stop

/-- The state of a player. -/
structure Player (β : Type) where
  /-- The samples that are kept, the oldest first. -/
  memory : Array β
  /-- How many of them have been played. -/
  played : Nat
  limiter : Limiter β
  channels : Nat
  played_le : played ≤ memory.size

namespace Player

variable {β : Type} [Scalar β]

/-- A player that has been sent nothing. -/
def new (limiter : Limiter β) (channels : Nat) : Player β :=
  { memory := #[], played := 0, limiter, channels, played_le := Nat.le_refl 0 }

/-- How many samples wait to be played. -/
def waiting (p : Player β) : Nat := p.memory.size - p.played

/-- Obeys a command, and says how many waiting samples that drops. -/
def obey (p : Player β) : Command β → Nat × Player β
  | .samples samples =>
    (0, { p with
      memory := p.memory ++ samples.toArray
      played_le := by
        have := p.played_le
        rw [Array.size_append]
        omega })
  | .stop =>
    (p.waiting, { p with
      memory := #[]
      played := 0
      limiter := p.limiter.reset
      played_le := Nat.le_refl 0 })

/-- The number of played samples that are removed together. -/
def compactionSize : Nat := 8192

/-- Removes played samples once there are enough of them. -/
def compact (p : Player β) : Player β :=
  if p.played < compactionSize then p
  else { p with
    memory := p.memory.extract p.played p.memory.size
    played := 0
    played_le := Nat.zero_le _ }

/-- Plays `count` samples, silence standing in for those that are missing.  Says how many of those
that were waiting have been played. -/
def play (p : Player β) (count : Nat) : List β × Nat × Player β :=
  let taken := min count p.waiting
  let sounding := (p.memory.extract p.played (p.played + taken)).toList
  let (output, limiter) := p.limiter.process p.channels
    (sounding ++ List.replicate (count - taken) (Scalar.ofNat 0))
  let next : Player β :=
    { p with
      played := p.played + taken
      limiter
      played_le := by have := p.played_le; simp only [taken, waiting]; omega }
  (output, taken, next.compact)

end Player

end Stave
