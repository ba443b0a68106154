import BatchOrder.Random.ChaCha

/-!
# Uniform choices and shuffles

A number below `n` is chosen from a random word by multiplication: the high half of the product of
the word and `n` is the choice. Words are refused whose product has a low half so great that some
choices would be likelier than others. A shuffle exchanges every element, from the last to the
second, with one chosen among those up to it.

Main results:

- Theorem `perm_shuffle`: a shuffle only moves the elements, whatever the stream holds.
-/

namespace BatchOrder.Random

/-- Whether the low half of a product admits the choice of a number below `n`: it lies below `n`
scaled up to the range of a word. -/
def admits (n : Nat) (product : Nat) : Bool :=
  product % UInt32.size < n <<< (31 - n.log2)

/-- The number of words that one choice looks at before it settles for zero. At least half of all
words are admitted, so this many random words are all refused with odds of one in `2 ^ 256`. -/
def patience : Nat := 256

/-- Choose a number up to `n` from a stream, looking at no more than so many words. -/
def chooseWithin (n : Nat) : Nat → Keystream → Fin (n + 1) × Keystream
  | 0, g => (0, g)
  | tries + 1, g =>
    let product := g.next.1.toNat * (n + 1)
    if admits (n + 1) product then (Fin.ofNat _ (product / UInt32.size), g.next.2)
    else chooseWithin n tries g.next.2

/-- Choose a number up to `n` from a stream. -/
def choose (n : Nat) (g : Keystream) : Fin (n + 1) × Keystream := chooseWithin n patience g

/-- Exchange each of the elements at positions `i` to one with one chosen among those up to it, the
last first. -/
def shuffleFrom {α : Type} : Nat → Array α → Keystream → Array α
  | 0, xs, _ => xs
  | i + 1, xs, g =>
    let drawn := choose (i + 1) g
    shuffleFrom i (xs.swapIfInBounds (i + 1) drawn.1) drawn.2

/-- The elements in the order that a stream gives them. -/
def shuffle {α : Type} (xs : Array α) (g : Keystream) : Array α := shuffleFrom (xs.size - 1) xs g

/-! ## Laws -/

private theorem perm_swapIfInBounds {α : Type} (xs : Array α) (i j : Nat) :
    (xs.swapIfInBounds i j).Perm xs := by
  rw [Array.swapIfInBounds_def]
  split
  · split
    · exact Array.swap_perm ..
    · exact .refl _
  · exact .refl _

/-- The exchanges below any position only move elements. -/
private theorem perm_shuffleFrom {α : Type} (i : Nat) (xs : Array α) (g : Keystream) :
    (shuffleFrom i xs g).Perm xs := by
  induction i generalizing xs g with
  | zero => exact .refl _
  | succ i ih => exact (ih ..).trans (perm_swapIfInBounds ..)

/-- A shuffle only moves the elements, whatever the stream holds. -/
theorem perm_shuffle {α : Type} (xs : Array α) (g : Keystream) : (shuffle xs g).Perm xs :=
  perm_shuffleFrom ..

end BatchOrder.Random
