/-!
# Noise

Random numbers that a seed decides.  They come from the ChaCha stream with eight rounds, whose key is
spread out from the seed.  Two words of the stream give one sample of noise.
-/

namespace Stave

/-! ## The stream -/

namespace Chacha

/-- The sixteen words that are stirred. -/
abbrev Words := Vector UInt32 16

/-- The word with its bits moved `n` places up; those that leave come in below. -/
def rotate (x n : UInt32) : UInt32 := (x <<< n) ||| (x >>> (32 - n))

/-- Stirs four words. -/
def quarter (w : Words) (a b c d : Fin 16) : Words :=
  let w := w.set a (w[a] + w[b])
  let w := w.set d (rotate (w[d] ^^^ w[a]) 16)
  let w := w.set c (w[c] + w[d])
  let w := w.set b (rotate (w[b] ^^^ w[c]) 12)
  let w := w.set a (w[a] + w[b])
  let w := w.set d (rotate (w[d] ^^^ w[a]) 8)
  let w := w.set c (w[c] + w[d])
  w.set b (rotate (w[b] ^^^ w[c]) 7)

/-- Stirs the columns and then the diagonals of the words, written as a square. -/
def doubleRound (w : Words) : Words :=
  let w := quarter w 0 4 8 12
  let w := quarter w 1 5 9 13
  let w := quarter w 2 6 10 14
  let w := quarter w 3 7 11 15
  let w := quarter w 0 5 10 15
  let w := quarter w 1 6 11 12
  let w := quarter w 2 7 8 13
  quarter w 3 4 9 14

/-- The words that a block starts from: four constants, the key, the number of the block and two
words that are zero. -/
def opening (key : Vector UInt32 8) (number : UInt64) : Words :=
  #v[0x61707865, 0x3320646e, 0x79622d32, 0x6b206574,
    key[0], key[1], key[2], key[3], key[4], key[5], key[6], key[7],
    number.toUInt32, (number >>> 32).toUInt32, 0, 0]

/-- One block of the stream. -/
def block (key : Vector UInt32 8) (number : UInt64) : List UInt32 :=
  let start := opening key number
  let stirred := doubleRound (doubleRound (doubleRound (doubleRound start)))
  (Vector.zipWith (· + ·) stirred start).toList

/-- The state behind a seed after one more step. -/
def nextSeed (state : UInt64) : UInt64 := state * 6364136223846793005 + 11634580027462260723

/-- The word that is read off a state. -/
def seedWord (state : UInt64) : UInt32 :=
  let turn := (state >>> 59).toUInt32
  let mixed := (((state >>> 18) ^^^ state) >>> 27).toUInt32
  (mixed >>> turn) ||| (mixed <<< ((32 - turn) &&& 31))

/-- The key of a seed. -/
def key (seed : UInt64) : Vector UInt32 8 :=
  let s1 := nextSeed seed
  let s2 := nextSeed s1
  let s3 := nextSeed s2
  let s4 := nextSeed s3
  let s5 := nextSeed s4
  let s6 := nextSeed s5
  let s7 := nextSeed s6
  let s8 := nextSeed s7
  #v[seedWord s1, seedWord s2, seedWord s3, seedWord s4, seedWord s5, seedWord s6, seedWord s7,
    seedWord s8]

end Chacha

/-! ## Samples -/

/-- A place in a stream of noise. -/
structure Noise where
  key : Vector UInt32 8
  /-- The number of the block that is used next. -/
  block : UInt64
  /-- The words that are left of the block before it. -/
  pending : List UInt32

namespace Noise

/-- The start of the noise of a seed. -/
def ofSeed (seed : UInt64) : Noise := ⟨Chacha.key seed, 0, []⟩

/-- The next word of the stream. -/
def word (n : Noise) : UInt32 × Noise :=
  match n.pending with
  | w :: rest => (w, { n with pending := rest })
  | [] =>
    match Chacha.block n.key n.block with
    | w :: rest => (w, { n with block := n.block + 1, pending := rest })
    | [] => (0, n)

/-- A sample from minus one up to, but not reaching, one: the upper 52 bits of 64 are the digits of a
number between one and two, which is then stretched. -/
def sample (low high : UInt32) : Float :=
  let bits := (high.toUInt64 <<< 32) ||| low.toUInt64
  (Float.ofBits ((bits >>> 12) ||| 0x3ff0000000000000) - 1.0) * 2.0 + -1.0

/-- The next sample. -/
def draw (n : Noise) : Float × Noise :=
  let (low, n) := n.word
  let (high, n) := n.word
  (sample low high, n)

end Noise

end Stave
