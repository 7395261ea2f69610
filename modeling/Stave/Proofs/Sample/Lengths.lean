import Stave.Proofs.Sample.Interpolation
import Stave.Proofs.Sound.Signs
import Stave.Proofs.Wav.Header
import Stave.Proofs.Wav.RoundTrip

/-!
# How long recordings are at another rate

A file is read as the sound of one channel, which is then brought to the rate that is asked for.  How
many samples that makes is a quotient of whole numbers rounded up; doubles miss the quotient by a very
small share of it.  A file may say that it has no samples in a second, and its sound then has no length
at any other rate.
-/

namespace Stave

namespace Recording

/-! ## Reading and resampling -/

section

variable {count source target : Nat} (hcount : 1 ≤ count ∧ count < 2 ^ 32)
  (hsource : 1 ≤ source ∧ source < 2 ^ 32) (htarget : 1 ≤ target ∧ target < 2 ^ 32)

include hcount hsource htarget

end

/-! ## Outcomes -/

section

variable {α : Type} [Scalar α] (narrow : α → Float32) {r : Recording} {rate : Nat}

end

end Recording

end Stave
