/-!
# A keystream of random words

The ChaCha stream cipher with twenty rounds as a source of 32-bit words. A block is a function of
the key and of a 64-bit block number; the stream is the words of block zero, of block one, and so
on. A key is expanded from a 64-bit seed by a linear congruential generator with permuted output.
-/

namespace BatchOrder.Random

/-! ## Blocks -/

/-- The sixteen words that the rounds mix. -/
abbrev Block := Vector UInt32 16

/-- Rotate a word to the left by `k` bits, for `0 < k < 32`. -/
def rotateLeft (x : UInt32) (k : UInt32) : UInt32 := (x <<< k) ||| (x >>> (32 - k))

/-- Mix four words of a block. -/
def quarterRound (x : Block) (i j k l : Fin 16) : Block :=
  let a := x[i] + x[j]
  let d := rotateLeft (x[l] ^^^ a) 16
  let c := x[k] + d
  let b := rotateLeft (x[j] ^^^ c) 12
  let a := a + b
  let d := rotateLeft (d ^^^ a) 8
  let c := c + d
  let b := rotateLeft (b ^^^ c) 7
  (((x.set i a).set j b).set k c).set l d

/-- Mix the columns of a block and then its diagonals. -/
def doubleRound (x : Block) : Block :=
  let x := quarterRound x 0 4 8 12
  let x := quarterRound x 1 5 9 13
  let x := quarterRound x 2 6 10 14
  let x := quarterRound x 3 7 11 15
  let x := quarterRound x 0 5 10 15
  let x := quarterRound x 1 6 11 12
  let x := quarterRound x 2 7 8 13
  quarterRound x 3 4 9 14

/-- A key of 256 bits. -/
abbrev Key := Vector UInt32 8

/-- What the rounds start from: four constant words, the key, the number of the block with its low
word first, and a stream number of zero. -/
def firstBlock (key : Key) (number : UInt64) : Block :=
  #v[0x61707865, 0x3320646e, 0x79622d32, 0x6b206574,
    key[0], key[1], key[2], key[3], key[4], key[5], key[6], key[7],
    number.toUInt32, (number >>> 32).toUInt32, 0, 0]

/-- The words of a block: ten double rounds, and the words they started from added. -/
def block (key : Key) (number : UInt64) : Block :=
  let first := firstBlock key number
  let mixed := (List.range 10).foldl (fun x _ => doubleRound x) first
  mixed.zipWith (· + ·) first

/-! ## Seeds -/

/-- The state that follows in the expansion of a seed. -/
def expandState (s : UInt64) : UInt64 := s * 6364136223846793005 + 11634580027462260723

/-- The word that a state of the expansion gives: its high bits folded and rotated. -/
def expandWord (s : UInt64) : UInt32 :=
  let x := (((s >>> 18) ^^^ s) >>> 27).toUInt32
  let k := (s >>> 59).toUInt32
  (x >>> k) ||| (x <<< ((32 - k) % 32))

/-- The next `n` words of the expansion after a state. -/
def expandWords : Nat → UInt64 → List UInt32
  | 0, _ => []
  | n + 1, s => expandWord (expandState s) :: expandWords n (expandState s)

@[simp] theorem length_expandWords (n : Nat) (s : UInt64) : (expandWords n s).length = n := by
  induction n generalizing s with
  | zero => rfl
  | succ n ih => simp [expandWords, ih]

/-- The key of a seed: eight words of its expansion. -/
def Key.ofSeed (seed : UInt64) : Key := ⟨(expandWords 8 seed).toArray, by simp⟩

/-! ## Streams -/

/-- A stream of words: those left of the block at hand, and the number of the block after it. -/
structure Keystream where
  key : Key
  left : List UInt32
  nextBlock : UInt64

namespace Keystream

/-- The stream of a seed from its first word on. -/
def ofSeed (seed : UInt64) : Keystream := ⟨Key.ofSeed seed, [], 0⟩

/-- Draw a word. -/
def next (g : Keystream) : UInt32 × Keystream :=
  match g.left with
  | w :: left => (w, { g with left })
  | [] =>
    let words := block g.key g.nextBlock
    (words[0], { g with left := words.toList.tail, nextBlock := g.nextBlock + 1 })

end Keystream

end BatchOrder.Random
