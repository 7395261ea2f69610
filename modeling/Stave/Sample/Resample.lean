import Stave.Scalar

/-!
# Resampling

A sound is brought to another sample rate by reading it at evenly spaced places.  A place between two
samples has the value on the line between them, and the places go on as long as there is a sample at
or before them.
-/

namespace Stave.Resample

variable {α β : Type} [Scalar α] [Scalar β]

/-- The number of samples that `count` samples have at another rate. -/
def length (count : Nat) (ratio : α) : Nat :=
  Scalar.toNat (Scalar.ceil (Scalar.ofNat count / ratio))

/-- The value of a sound at a place; behind the last sample it stays as it is.  Places are measured
in `α` and `narrow` brings the distance from the sample before a place to `β`. -/
def valueAt (narrow : α → β) (samples : Array β) (place : α) : β :=
  let index := min (Scalar.toNat place) (samples.size - 1)
  let here := samples.getD index (Scalar.ofNat 0)
  if index < samples.size - 1 then
    let distance := narrow (place - Scalar.ofNat index)
    here * (Scalar.ofNat 1 - distance) + samples.getD (index + 1) (Scalar.ofNat 0) * distance
  else here

/-- A sound of rate `source` at rate `target`.  A single sample stays alone. -/
def linear (narrow : α → β) (samples : List β) (source target : Nat) : List β :=
  let held := samples.toArray
  if held.size < 2 then samples
  else
    let ratio : α := Scalar.ofNat source / Scalar.ofNat target
    (List.range (length held.size ratio)).map fun i =>
      valueAt narrow held (Scalar.ofNat i * ratio)

end Stave.Resample
