import Stave.Mix.Overlay
import Stave.Mix.Stream

/-!
# Streams on several channels

A stream for one channel is heard on several by repeating each sample.  Whatever is done to streams
frame by frame is done to the repeated ones when every count of frames is multiplied by the number of
channels.
-/

namespace Stave.Mix

variable {β γ : Type} (channels : Nat)

@[simp]
theorem spread_nil : spread channels ([] : List β) = [] := rfl

@[simp]
theorem spread_cons (sample : β) (stream : List β) :
    spread channels (sample :: stream) = List.replicate channels sample ++ spread channels stream :=
  List.flatMap_cons

theorem length_spread (stream : List β) :
    (spread channels stream).length = stream.length * channels := by
  induction stream with
  | nil => exact (Nat.zero_mul _).symm
  | cons sample rest ih =>
    rw [spread_cons, List.length_append, List.length_replicate, ih, List.length_cons, Nat.succ_mul,
      Nat.add_comm]

variable [Zero β]

variable [Add β]

end Stave.Mix
