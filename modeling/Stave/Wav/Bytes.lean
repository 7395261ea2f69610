/-!
# Numbers in bytes

WAVE files write numbers with their lowest byte first.
-/

namespace Stave.Wav

/-- A number in `width` bytes; what does not fit is lost. -/
def bytes : (width : Nat) → Nat → List UInt8
  | 0, _ => []
  | width + 1, n => UInt8.ofNat n :: bytes width (n / 256)

/-- The number that some bytes write. -/
def number : List UInt8 → Nat
  | [] => 0
  | b :: rest => b.toNat + 256 * number rest

/-- The number that is written in `width` bytes from `offset` on. -/
def field (offset width : Nat) (data : List UInt8) : Nat := number ((data.drop offset).take width)

/-- The bytes of a text of ASCII characters. -/
def tag (text : String) : List UInt8 := text.toList.map fun c => UInt8.ofNat c.toNat

end Stave.Wav
