import Stave.Time.Ticks

/-!
# The transport

The clock of playback.  It moves in audio frames; each move is turned into ticks at the tempo of the
moment and the fraction of a tick that is left is carried into the next move.  A change of tempo
therefore acts only on what follows it, and no fraction is lost.  The frames since playing began are
counted by a 64-bit word, which wraps around.
-/

namespace Stave

/-- The musical time that one block of frames covers. -/
structure Window where
  /-- The first tick of the block. -/
  start : Ticks
  /-- The first tick after the block. -/
  finish : Ticks
  /-- Frames played before the block, since playing began. -/
  played : UInt64
deriving DecidableEq, Repr

/-- The frame at which a block starts. -/
def Window.startFrame (w : Window) : Nat := w.played.toNat

/-- The state of the clock. -/
structure Transport (α : Type) where
  /-- Beats per minute. -/
  bpm : α
  sampleRate : Nat
  playing : Bool
  position : Ticks
  /-- The fraction of a tick that has passed beyond the position. -/
  carry : α
  /-- Frames played since playing began. -/
  played : UInt64

/-- The number of frames played since playing began. -/
def Transport.framesPlayed {α : Type} (t : Transport α) : Nat := t.played.toNat

namespace Transport

variable {α : Type} [Scalar α]

/-- A stopped clock at the start. -/
def new (bpm : α) (sampleRate : Nat) : Transport α :=
  { bpm, sampleRate, playing := false, position := Ticks.zero, carry := Scalar.ofNat 0,
    played := 0 }

/-- Starts from where the clock stands; the count of frames begins anew. -/
def play (t : Transport α) : Transport α := { t with playing := true, played := 0 }

/-- Back to the start, playing or not. -/
def rewind (t : Transport α) : Transport α :=
  { t with position := Ticks.zero, carry := Scalar.ofNat 0 }

/-- Stops at the start. -/
def stop (t : Transport α) : Transport α := { t with playing := false }.rewind

/-- Jumps to a position and keeps the carried fraction, so that a loop stays exact over many
rounds. -/
def seek (t : Transport α) (position : Ticks) : Transport α := { t with position }

/-- The tempo from the next move on. -/
def setTempo (t : Transport α) (bpm : α) : Transport α := { t with bpm }

/-- The ticks, fraction included, from the current position to `frames` frames later. -/
def elapsed (t : Transport α) (frames : Nat) : α :=
  t.carry + Scalar.ofNat frames / Scalar.ofNat t.sampleRate * t.bpm / Scalar.ofNat 60
    * Scalar.ofNat Ticks.perBeat

/-- The block of the next `frames` frames, and the clock after it. -/
def move (t : Transport α) (frames : Nat) : Window × Transport α :=
  let exact := t.elapsed frames
  let whole := Scalar.floor exact
  let position := t.position + Ticks.ofNat (Scalar.toNat whole)
  (⟨t.position, position, t.played⟩,
    { t with position, carry := exact - whole, played := t.played + UInt64.ofNat frames })

/-- Moves a playing clock; a stopped one covers no block. -/
def advance (t : Transport α) (frames : Nat) : Option Window × Transport α :=
  if t.playing then
    let (window, next) := t.move frames
    (some window, next)
  else (none, t)

end Transport

end Stave
