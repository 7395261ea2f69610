import Mathlib.Algebra.Ring.Nat
import Stave.Wav.Bytes

/-!
# Reading numbers back

The number that some bytes write is the one that they were written for, as long as it fits; and what
stands between other fields of fixed width is found by counting the bytes before it.
-/

namespace Stave.Wav

@[simp] theorem length_bytes (width n : Nat) : (bytes width n).length = width := by
  induction width generalizing n with
  | zero => rfl
  | succ width ih => rw [bytes, List.length_cons, ih]

@[simp] theorem length_tag (text : String) : (tag text).length = text.length := by
  rw [tag, List.length_map, String.length_toList]

/-- Bytes write what is left of a number when it is cut down to them. -/
theorem number_bytes (width n : Nat) : number (bytes width n) = n % 256 ^ width := by
  induction width generalizing n with
  | zero => rw [bytes, number, Nat.pow_zero, Nat.mod_one]
  | succ width ih =>
    have hlow : (UInt8.ofNat n).toNat = n % 256 := UInt8.toNat_ofNat'
    rw [bytes, number, ih, hlow, Nat.pow_succ', Nat.mod_mul]

/-- A field at the beginning. -/
theorem field_first {width n : Nat} (h : n < 256 ^ width) (behind : List UInt8) :
    field 0 width (bytes width n ++ behind) = n := by
  rw [field, List.drop_zero, List.take_left' (length_bytes width n), number_bytes, Nat.mod_eq_of_lt h]

/-- What stands far enough behind some bytes is found by counting from their end. -/
theorem drop_bytes_append {width count : Nat} (h : width ≤ count) (n : Nat) (behind : List UInt8) :
    (bytes width n ++ behind).drop count = behind.drop (count - width) := by
  rw [List.drop_append, List.drop_eq_nil_of_le (by rwa [length_bytes]), List.nil_append, length_bytes]

/-- A field that stands behind another one. -/
theorem field_behind {before offset : Nat} (h : before ≤ offset) (width n : Nat)
    (behind : List UInt8) :
    field offset width (bytes before n ++ behind) = field (offset - before) width behind := by
  rw [field, field, drop_bytes_append h]

end Stave.Wav
