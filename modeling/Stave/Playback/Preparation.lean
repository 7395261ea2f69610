import Stave.Playback.Settings
import Stave.Router
import Stave.Sample.Loader
import Stave.Score.Composition
import Stave.Sound.Drum

/-!
# Preparing a composition

Before a composition sounds, its recordings are loaded, its channels get their instruments, and the
events that will be heard are picked out.
-/

namespace Stave

namespace NoteEvent

/-- Whether one event is written after another. -/
def writtenAfter (e other : NoteEvent) : Bool :=
  decide (other.lineIndex < e.lineIndex)
    || (e.lineIndex == other.lineIndex && decide (other.tokenIndex < e.tokenIndex))

/-- Whether two events are written as the same token. -/
def sharesPlace (e other : NoteEvent) : Bool :=
  e.lineIndex == other.lineIndex && e.tokenIndex == other.tokenIndex

/-- Whether two events start together on one channel. -/
def coincides (e other : NoteEvent) : Bool :=
  e.beat == other.beat && e.instrument == other.instrument

/-- Puts an event down among others of which no two coincide.  Of two that coincide the one that is
written later stays. -/
def overtake (e : NoteEvent) : List NoteEvent → List NoteEvent
  | [] => [e]
  | last :: rest =>
    if last.coincides e then (if e.writtenAfter last then e else last) :: rest
    else last :: overtake e rest

/-- Of the events that start together on one channel, the one that is written last. -/
def lastOnes (events : List NoteEvent) : List NoteEvent :=
  events.foldl (fun found e => e.overtake found) []

end NoteEvent

namespace Registry

/-- Whether a channel makes only one sound at a time. -/
def isMono (r : Registry) (channel : String) : Bool :=
  (r.get? channel).any fun c => c.voicing == .mono

end Registry

/-- Of the events that start together on a channel that makes only one sound at a time, keeps the one
that is written last. -/
def dropSuperseded (registry : Registry) (events : List NoteEvent) : List NoteEvent :=
  let last := NoteEvent.lastOnes (events.filter fun e => registry.isMono e.instrument)
  events.filter fun e =>
    !registry.isMono e.instrument
      || (last.find? fun l => l.coincides e).any fun l => l.sharesPlace e

/-- A composition that is ready to be played. -/
structure Preparation where
  events : List NoteEvent
  router : Router
  /-- The channels that stay silent because their recordings could not be loaded. -/
  failed : List String

namespace Preparation

/-- Prepares a composition. -/
def ofComposition (composition : Composition) (registry : Registry) (volumes : Named Float)
    (voices : Named VoiceSettings) (settings : AudioSettings) (source : Source) : Preparation :=
  let loaded := Loaded.ofDeclarations composition.declarations source settings.sampleRate
  let bank := (Drum.kit settings.sampleRate settings.seed).merge loaded.bank
  let audible := composition.events.filter fun e => !loaded.failed.contains e.instrument
  { events := dropSuperseded registry audible
    router := Router.ofChannels composition.channels registry voices volumes bank settings.seed
    failed := loaded.failed }

end Preparation

end Stave
