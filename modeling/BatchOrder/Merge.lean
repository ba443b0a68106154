import BatchOrder.Random.Shuffle

/-!
# Merging clusters

Clusters that were ordered one by one are merged into one sequence. Every element has a slot that
only names its cluster; the slots are shuffled, and each is then filled with the next element of its
cluster. So the order within a cluster is kept, and where the clusters meet is up to the seed.
-/

namespace BatchOrder

/-- One slot for every element of the lists: the position of the list it comes from. -/
def slots {α : Type} (lists : List (List α)) : List Nat :=
  lists.zipIdx.flatMap fun e => List.replicate e.1.length e.2

/-- Fill slots from the left with the next elements of the lists that they name. A slot that names
no list or one with nothing left stays empty. -/
def fill {α : Type} : List Nat → Array (List α) → List α
  | [], _ => []
  | i :: rest, lists =>
    match lists[i]? with
    | some (x :: xs) => x :: fill rest (lists.setIfInBounds i xs)
    | _ => fill rest lists

/-- Merge lists into one in the order that a seed gives. -/
def shuffleMerge {α : Type} (lists : List (List α)) (seed : UInt64) : List α :=
  fill (Random.shuffle (slots lists).toArray (Random.Keystream.ofSeed seed)).toList lists.toArray

end BatchOrder
