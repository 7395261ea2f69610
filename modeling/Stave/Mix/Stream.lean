/-!
# Streams of samples

A sound is made sample by sample by a machine that keeps a state; what it makes for one channel is
then spread over all channels of the output.
-/

namespace Stave.Mix

variable {σ β : Type}

/-- Feeds a machine with items one after the other.  Besides what it makes of them there is the state
in which it is left. -/
def thread {α : Type} (step : σ → α → β × σ) (items : List α) (start : σ) : List β × σ :=
  let (made, state) := items.foldl
    (fun (made, state) item =>
      let (result, next) := step state item
      (made.push result, next))
    ((#[] : Array β), start)
  (made.toList, state)

/-- Runs a machine for `count` samples.  It is told the number of each sample. -/
def run (step : σ → Nat → β × σ) (count : Nat) (start : σ) : List β × σ :=
  thread step (List.range count) start

/-- The samples that a machine makes. -/
def generate (step : σ → Nat → β × σ) (count : Nat) (start : σ) : List β :=
  (run step count start).1

/-- How many samples some frames have, one for each channel.  The count is a 64-bit word and wraps
around. -/
def sampleCount (frames channels : Nat) : Nat := frames * channels % Nat.pow 2 64

/-- The samples that there can never be room for.  A sample takes four bytes, and addresses are signed
64-bit words. -/
def tooManySamples : Nat := Nat.pow 2 61

/-- A stream for one channel, heard on `channels` channels: each sample once per channel. -/
def spread (channels : Nat) (stream : List β) : List β :=
  stream.flatMap (List.replicate channels)

/-- Appends the pieces of a stream to those that are cut off already. -/
def cut (size : Nat) (pieces : Array (List β)) (stream : List β) : Array (List β) :=
  if stream.isEmpty || size == 0 then pieces
  else cut size (pieces.push (stream.take size)) (stream.drop size)
termination_by stream.length
decreasing_by
  simp_all only [Bool.or_eq_true, List.isEmpty_iff, beq_iff_eq, not_or, List.length_drop]
  have := List.length_pos_iff.mpr (And.left ‹_›)
  omega

/-- A stream in pieces of `size` samples; the last piece may be shorter. -/
def frames (size : Nat) (stream : List β) : List (List β) := (cut size #[] stream).toList

end Stave.Mix
