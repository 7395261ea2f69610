import Stave.Decimal.Layout
import Stave.Output.Sink
import Stave.Wav.Format

/-!
# Failures of playback

What can keep a composition from being heard, and the tempos at which it can be.
-/

namespace Stave

/-- Why there is no sound. -/
inductive PlaybackError
  /-- The composition has no events. -/
  | nothingToRender
  | invalidTempo (bpm : Float)
  | wav (fault : Wav.Fault)
  | sink (error : SinkError)
  /-- The sample rate leaves no room for a filter that an instrument needs. -/
  | unfilterable
  /-- There are more samples than any memory could hold. -/
  | tooLong

namespace PlaybackError

/-- The words for a failure. -/
def message : PlaybackError → String
  | nothingToRender => "nothing to render: the composition has no events"
  | invalidTempo bpm => "invalid tempo: " ++ Decimal.Layout.plain.write bpm ++ " BPM"
  | wav fault => "WAV encoding failed: " ++ fault.message
  | sink error => "audio output failed: " ++ error.message
  | unfilterable => "the sample rate is too low for the low-pass filter"
  | tooLong => "the rendering is too long"

end PlaybackError

/-- A tempo is a finite number of beats per minute above zero. -/
def isTempo (bpm : Float) : Bool := bpm.isFinite && 0.0 < bpm

/-- Refuses what is not a tempo. -/
def requireTempo (bpm : Float) : Except PlaybackError Unit :=
  if isTempo bpm then pure () else throw (.invalidTempo bpm)

end Stave
