import Stave.Configuration
import Stave.Proofs.Output.Limiting
import Stave.Proofs.Playback.Agreement
import Stave.Proofs.Playback.Prepared
import Stave.Proofs.Sound.Lowpass

/-!
# How a rendering ends

A rendering makes a file, or it says why it does not, or it breaks off.  It breaks off for three
reasons only: there are more samples than memory has addresses, the sound of a single note has as many,
or a note begins on an instrument with a filter at a sample rate below 45, which leaves no room between
the bounds of the filter's cutoff.  Memory is otherwise taken to be large enough.
-/

namespace Stave

/-! ## Blocks -/

namespace Scheduler

end Scheduler

/-- Whether a failure is no answer but the end of the program. -/
def PlaybackError.breaksOff : PlaybackError → Bool
  | .unfilterable => true
  | .tooLong => true
  | .wav .frameless => true
  | _ => false

namespace Rendering

open Scheduler

theorem breaksOff_fault (router : Router) (block : Block Float Float32) :
    (fault router block).breaksOff = true := by
  rw [fault]
  split <;> rfl

section Unlimited

variable {prepared : Preparation} {bpm : Float} {settings : AudioSettings} {frames : Nat}

end Unlimited

section Outcomes

variable {composition : Composition} {registry : Registry} {bpm : Float} {volumes : Named Float}
  {voices : Named VoiceSettings} {settings : AudioSettings} {source : Source}

end Outcomes

end Rendering

end Stave
