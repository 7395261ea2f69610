/-!
# Overlaying sounds

A stream of samples is a list.  Overlaying adds one stream to another from a given sample on;
silence fills whatever gap there is before it, and the longer of the two decides the length.
-/

namespace Stave.Mix

variable {α : Type} [Add α] [Zero α]

/-- Adds two streams sample by sample; where only the second one has a sample, it is added to
silence. -/
def add (base added : List α) : List α :=
  List.zipWith (· + ·) base added
    ++ base.drop added.length
    ++ (added.drop base.length).map (0 + ·)

/-- The first `n` samples, silence standing in for those that are missing. -/
def takeOrSilence (n : Nat) (stream : List α) : List α :=
  let sounding := stream.take n
  sounding ++ List.replicate (n - sounding.length) 0

/-- Adds `sound` to `stream` from sample `start` on.  A sound without samples leaves the stream as
it is. -/
def overlay (stream : List α) (start : Nat) (sound : List α) : List α :=
  if sound.isEmpty then stream
  else takeOrSilence start stream ++ add (stream.drop start) sound

end Stave.Mix
