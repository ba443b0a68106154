import Std.Data.HashMap

/-!
# Keyed heaps

A binary heap of entries that can be found by key, so that the value of a key can be replaced in
place. The comparison is a parameter of the type; the entry that compares greatest stands on top. No
operation assumes that the comparison is an order: without one the heap still holds the right
entries, only the choice of the top means nothing.

Main results:

- Theorems `size_update` and `size_pop?`: replacing a value keeps the number of entries, and taking
  the top out leaves one less, so that draining ends.
-/

namespace BatchOrder

universe u v

/-- A heap in an array, the children of position `i` at `2 * i + 1` and `2 * i + 2`, with the
position of every key. -/
structure KeyedHeap (κ : Type u) (ν : Type v) [BEq κ] [Hashable κ] (cmp : ν → ν → Ordering) where
  entries : Array (κ × ν)
  positions : Std.HashMap κ Nat

namespace KeyedHeap

variable {κ : Type u} {ν : Type v} [BEq κ] [Hashable κ] {cmp : ν → ν → Ordering}

/-! ## Queries -/

/-- The heap without entries. -/
def empty : KeyedHeap κ ν cmp := ⟨#[], ∅⟩

instance : EmptyCollection (KeyedHeap κ ν cmp) := ⟨empty⟩

/-- The number of entries. -/
def size (h : KeyedHeap κ ν cmp) : Nat := h.entries.size

/-- Whether there is no entry. -/
def isEmpty (h : KeyedHeap κ ν cmp) : Bool := h.entries.isEmpty

/-- Whether a key has an entry. -/
def contains (h : KeyedHeap κ ν cmp) (k : κ) : Bool := h.positions.contains k

/-- The value of a key. -/
def value? (h : KeyedHeap κ ν cmp) (k : κ) : Option ν :=
  h.positions[k]?.bind fun i => h.entries[i]?.map Prod.snd

/-- The entry on top. -/
def top? (h : KeyedHeap κ ν cmp) : Option (κ × ν) := h.entries[0]?

/-- Whether the entry at position `i` compares greater than the one at position `j`. A position
without an entry takes part in no such comparison. -/
def beats (h : KeyedHeap κ ν cmp) (i j : Nat) : Bool :=
  match h.entries[i]?, h.entries[j]? with
  | some x, some y => cmp x.2 y.2 == .gt
  | _, _ => false

/-- Only a position with an entry beats another. -/
theorem lt_size_of_beats {h : KeyedHeap κ ν cmp} {i j : Nat} (hij : h.beats i j) :
    i < h.size := by
  unfold beats at hij
  split at hij
  · next x _ hx _ => exact (Array.getElem?_eq_some_iff.1 hx).1
  · cases hij

/-! ## Moving entries -/

/-- Exchange the entries at two positions. -/
def swap (h : KeyedHeap κ ν cmp) (i j : Nat) : KeyedHeap κ ν cmp :=
  match h.entries[i]?, h.entries[j]? with
  | some x, some y =>
    ⟨h.entries.swapIfInBounds i j, (h.positions.insert x.1 j).insert y.1 i⟩
  | _, _ => h

/-- Exchanging two entries keeps the number of entries. -/
@[simp] theorem size_swap (h : KeyedHeap κ ν cmp) (i j : Nat) : (h.swap i j).size = h.size := by
  unfold swap
  split <;> simp [size]

/-- Raise the entry at position `i` for as long as it beats its parent; the second component is
the position where it stops. -/
def siftUp (h : KeyedHeap κ ν cmp) (i : Nat) : KeyedHeap κ ν cmp × Nat :=
  if 0 < i ∧ h.beats i ((i - 1) / 2) then siftUp (h.swap i ((i - 1) / 2)) ((i - 1) / 2)
  else (h, i)
termination_by i
decreasing_by omega

/-- Raising an entry keeps the number of entries. -/
@[simp] theorem size_siftUp (h : KeyedHeap κ ν cmp) (i : Nat) : (h.siftUp i).1.size = h.size := by
  fun_induction siftUp h i with
  | case1 h i _ ih => rw [ih, size_swap]
  | case2 => rfl

/-- The position of the greatest entry among the one at `i` and its children, of equals the one
that stands first. -/
def favourite (h : KeyedHeap κ ν cmp) (i : Nat) : Nat :=
  let elder := if h.beats (2 * i + 1) i then 2 * i + 1 else i
  if h.beats (2 * i + 2) elder then 2 * i + 2 else elder

/-- The greatest among an entry and its children is the entry itself or stands further down in the
heap. -/
theorem favourite_spec (h : KeyedHeap κ ν cmp) (i : Nat) :
    h.favourite i = i ∨ (i < h.favourite i ∧ h.favourite i < h.size) := by
  unfold favourite
  dsimp only
  generalize he : (if h.beats (2 * i + 1) i = true then 2 * i + 1 else i) = elder
  have helder : elder = i ∨ (i < elder ∧ elder < h.size) := by
    split at he
    · next hl => exact .inr (he ▸ ⟨by omega, lt_size_of_beats hl⟩)
    · exact .inl he.symm
  split
  · next hr => exact .inr ⟨by omega, lt_size_of_beats hr⟩
  · exact helder

/-- Lower the entry at position `i` for as long as one of its children beats it. -/
def siftDown (h : KeyedHeap κ ν cmp) (i : Nat) : KeyedHeap κ ν cmp :=
  if h.favourite i = i then h else siftDown (h.swap i (h.favourite i)) (h.favourite i)
termination_by h.size - i
decreasing_by
  rcases h.favourite_spec i with _ | _
  · contradiction
  · rw [size_swap]; omega

/-- Lowering an entry keeps the number of entries. -/
@[simp] theorem size_siftDown (h : KeyedHeap κ ν cmp) (i : Nat) : (h.siftDown i).size = h.size := by
  fun_induction siftDown h i with
  | case1 => rfl
  | case2 h i _ ih => rw [ih, size_swap]

/-! ## Changing the entries -/

/-- Add an entry for a key that has none. Says whether the heap has changed. -/
def add (h : KeyedHeap κ ν cmp) (k : κ) (x : ν) : Bool × KeyedHeap κ ν cmp :=
  if h.contains k then (false, h)
  else
    let i := h.entries.size
    (true, (siftUp ⟨h.entries.push (k, x), h.positions.insert k i⟩ i).1)

/-- Replace the value of a key that has one. Says whether there was one. -/
def update (h : KeyedHeap κ ν cmp) (k : κ) (x : ν) : Bool × KeyedHeap κ ν cmp :=
  match h.positions[k]? with
  | none => (false, h)
  | some i =>
    let (raised, j) := siftUp ⟨h.entries.modify i fun e => (e.1, x), h.positions⟩ i
    (true, raised.siftDown j)

/-- Take the top entry out. -/
def pop? (h : KeyedHeap κ ν cmp) : Option ((κ × ν) × KeyedHeap κ ν cmp) :=
  match h.top? with
  | none => none
  | some e =>
    let h := h.swap 0 (h.size - 1)
    some (e, siftDown ⟨h.entries.pop, h.positions.erase e.1⟩ 0)

/-- Replacing a value keeps the number of entries. -/
@[simp] theorem size_update (h : KeyedHeap κ ν cmp) (k : κ) (x : ν) :
    (h.update k x).2.size = h.size := by
  unfold update
  split
  · rfl
  · next i _ =>
    rw [size_siftDown, size_siftUp, size, Array.size_modify, size]

/-- Taking the top out leaves one entry less. -/
theorem size_pop? {h h' : KeyedHeap κ ν cmp} {e : κ × ν} (hp : h.pop? = some (e, h')) :
    h'.size + 1 = h.size := by
  unfold pop? at hp
  split at hp
  · cases hp
  · next hd =>
    have hs : 0 < h.size := (Array.getElem?_eq_some_iff.1 hd).1
    have hw : (h.swap 0 (h.size - 1)).entries.size = h.size := size_swap ..
    injection hp with hp
    injection hp with _ hp
    rw [← hp, size_siftDown, size, Array.size_pop, hw]
    omega

/-- The entries in the order in which they leave the heap. -/
def drain (h : KeyedHeap κ ν cmp) : List (κ × ν) :=
  match _hp : h.pop? with
  | none => []
  | some (e, rest) => e :: drain rest
termination_by h.size
decreasing_by have := size_pop? _hp; omega

end KeyedHeap

end BatchOrder
