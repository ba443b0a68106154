import BatchOrder.Proofs.Independence

/-!
# What a merge depends on

A shuffle only moves what stands at its positions and never looks at it.  A list without elements
has no slot, so leaving it out renumbers the slots behind it and nothing else; the renumbered slots
are shuffled in the same way, and each of them finds the list that it found before.  So a merge is
read off a pattern of places that comes from the seed and the lengths of the lists with elements
alone, and clusters that were left with an empty order have no part in it.

Main results:

- Theorem `Random.shuffle_map`: a shuffle does not look at the elements.
- Theorem `slots_insert_nil`: an empty list renumbers the slots behind it.
- Theorem `fill_skip`: renumbered slots are filled from the renumbered lists with the same elements.
- Theorem `shuffleMerge_withElements`: empty lists make no difference to a merge.
- Theorem `merge_follows_pattern`: what a merge depends on.
-/

namespace BatchOrder

variable {α β : Type}

/-! ## Shuffles -/

namespace Random

/-- An exchange does not look at the elements. -/
theorem swapIfInBounds_map (f : α → β) (xs : Array α) (i j : Nat) :
    (xs.map f).swapIfInBounds i j = (xs.swapIfInBounds i j).map f := by
  simp only [Array.swapIfInBounds_def, Array.size_map]
  split
  · split
    · simp only [Array.swap_def, Array.map_set, Array.getElem_map]
    · rfl
  · rfl

/-- The exchanges below a position do not look at the elements. -/
theorem shuffleFrom_map (f : α → β) (i : Nat) (xs : Array α) (g : Keystream) :
    shuffleFrom i (xs.map f) g = (shuffleFrom i xs g).map f := by
  induction i generalizing xs g with
  | zero => rfl
  | succ i ih => simp only [shuffleFrom, swapIfInBounds_map, ih]

/-- A shuffle does not look at the elements. -/
theorem shuffle_map (f : α → β) (xs : Array α) (g : Keystream) :
    shuffle (xs.map f) g = (shuffle xs g).map f := by
  rw [shuffle, Array.size_map]
  exact shuffleFrom_map ..

end Random

/-! ## Numbers with one left out -/

/-- The numbers but one, in order: those from `k` on move up by one. -/
def skip (k i : Nat) : Nat := if i < k then i else i + 1

theorem skip_of_lt {k i : Nat} (h : i < k) : skip k i = i := if_pos h

theorem skip_of_le {k i : Nat} (h : k ≤ i) : skip k i = i + 1 := if_neg (Nat.not_lt.2 h)

/-- Different numbers stay different when one is left out. -/
theorem skip_injective (k : Nat) : Function.Injective (skip k) := by
  intro i j h
  unfold skip at h
  split at h <;> split at h <;> omega

/-- Behind an empty list every list has the next number. -/
theorem getElem?_insert_nil (before after : List (List α)) (i : Nat) :
    (before ++ [] :: after)[skip before.length i]? = (before ++ after)[i]? := by
  rcases Nat.lt_or_ge i before.length with hlt | hge
  · rw [skip_of_lt hlt, List.getElem?_append_left hlt, List.getElem?_append_left hlt]
  · rw [skip_of_le hge, List.getElem?_append_right (Nat.le_succ_of_le hge),
      List.getElem?_append_right hge, Nat.succ_sub hge, List.getElem?_cons_succ]

/-! ## Slots -/

/-- The slots for the elements of some lists, which are numbered from `n` on. -/
def slotsFrom (n : Nat) (lists : List (List α)) : List Nat :=
  (lists.zipIdx n).flatMap fun e => List.replicate e.1.length e.2

/-- The slots of the first list stand before those of the others. -/
theorem slotsFrom_cons (n : Nat) (xs : List α) (lists : List (List α)) :
    slotsFrom n (xs :: lists) = List.replicate xs.length n ++ slotsFrom (n + 1) lists := by
  simp only [slotsFrom, List.zipIdx_cons, List.flatMap_cons]

/-- Numbering the slots from one further on skips a number in all of them. -/
theorem slotsFrom_succ {k n : Nat} (h : k ≤ n) (lists : List (List α)) :
    slotsFrom (n + 1) lists = (slotsFrom n lists).map (skip k) := by
  induction lists generalizing n with
  | nil => rfl
  | cons xs lists ih =>
      rw [slotsFrom_cons, slotsFrom_cons, List.map_append, List.map_replicate, skip_of_le h,
        ih (Nat.le_succ_of_le h)]

/-- An empty list renumbers the slots behind it. -/
theorem slots_insert_nil (before after : List (List α)) :
    slots (before ++ [] :: after) = (slots (before ++ after)).map (skip before.length) := by
  have hfrom (n : Nat) : slotsFrom n (before ++ [] :: after) =
      (slotsFrom n (before ++ after)).map (skip (n + before.length)) := by
    induction before generalizing n with
    | nil => exact slotsFrom_succ (Nat.le_refl n) after
    | cons xs before ih =>
        have hlength : n + 1 + before.length = n + (before.length + 1) := by omega
        rw [List.cons_append, List.cons_append, slotsFrom_cons, slotsFrom_cons, List.map_append,
          List.map_replicate, List.length_cons, skip_of_lt (by omega), ih, hlength]
  have hzero := hfrom 0
  rwa [Nat.zero_add] at hzero

/-- Renumbered slots are filled from the renumbered lists with the same elements. -/
theorem fill_skip (k : Nat) (is : List Nat) {lists lists' : Array (List α)}
    (h : ∀ i, lists'[skip k i]? = lists[i]?) :
    fill (is.map (skip k)) lists' = fill is lists := by
  induction is generalizing lists lists' with
  | nil => rfl
  | cons i is ih =>
      rw [List.map_cons, fill, fill, h i]
      rcases hi : lists[i]? with _ | _ | ⟨x, xs⟩
      · exact ih h
      · exact ih h
      · apply congrArg (List.cons x)
        apply ih
        intro j
        by_cases hij : i = j
        · subst hij
          have hi' := (h i).trans hi
          rw [Array.getElem?_setIfInBounds_self_of_lt (Array.getElem?_eq_some_iff.1 hi').1,
            Array.getElem?_setIfInBounds_self_of_lt (Array.getElem?_eq_some_iff.1 hi).1]
        · rw [Array.getElem?_setIfInBounds_ne fun hskip => hij (skip_injective k hskip),
            Array.getElem?_setIfInBounds_ne hij]
          exact h j

/-! ## Merges without empty lists -/

/-- An empty list makes no difference to a merge, wherever it stands. -/
theorem shuffleMerge_insert_nil (before after : List (List α)) (seed : UInt64) :
    shuffleMerge (before ++ [] :: after) seed = shuffleMerge (before ++ after) seed := by
  rw [shuffleMerge, shuffleMerge, slots_insert_nil, ← List.map_toArray, Random.shuffle_map,
    Array.toList_map]
  apply fill_skip
  intro i
  rw [List.getElem?_toArray, List.getElem?_toArray, getElem?_insert_nil]

/-- The lists that have elements, in order. -/
def withElements (lists : List (List α)) : List (List α) := lists.filter fun xs => !xs.isEmpty

/-- Empty lists make no difference to a merge, however many there are. -/
theorem shuffleMerge_withElements (lists : List (List α)) (seed : UInt64) :
    shuffleMerge (withElements lists) seed = shuffleMerge lists seed := by
  have happend (before : List (List α)) :
      shuffleMerge (before ++ withElements lists) seed = shuffleMerge (before ++ lists) seed := by
    induction lists generalizing before with
    | nil => rfl
    | cons xs lists ih =>
        cases xs with
        | nil => exact (ih before).trans (shuffleMerge_insert_nil before lists seed).symm
        | cons x xs =>
            have hrest := ih (before ++ [x :: xs])
            rwa [List.append_assoc, List.append_assoc] at hrest
  exact happend []

/-! ## Patterns -/

/-- The places in lists of the given lengths: the number of the list and the position in it. -/
def placesIn (lengths : List Nat) : List (List (Nat × Nat)) :=
  lengths.zipIdx.map fun e => (List.range e.1).map (e.2, ·)

/-- The order in which a seed merges the places in lists of the given lengths. -/
def mergePattern (lengths : List Nat) (seed : UInt64) : List (Nat × Nat) :=
  shuffleMerge (placesIn lengths) seed

/-- The element at a place, if the place is in the lists. -/
def elementAt? (lists : List (List α)) (p : Nat × Nat) : Option α := lists[p.1]?.bind (·[p.2]?)

/-- The elements at the places in some lists are those of the lists. -/
theorem map_elementAt?_placesIn (lists : List (List α)) :
    (placesIn (lists.map List.length)).map (List.map (elementAt? lists)) =
      lists.map (List.map some) := by
  apply List.ext_getElem?
  intro i
  simp only [placesIn, List.getElem?_map, List.getElem?_zipIdx, Option.map_map, Nat.zero_add]
  cases hi : lists[i]? with
  | none => rfl
  | some xs =>
      apply congrArg some
      apply List.ext_getElem?
      intro j
      rcases Nat.lt_or_ge j xs.length with hlt | hge
      · simp [elementAt?, hi, hlt]
      · simp [hge]

/-- A merge is read off the pattern for the lengths of the lists. -/
theorem map_some_shuffleMerge (lists : List (List α)) (seed : UInt64) :
    (shuffleMerge lists seed).map some =
      (mergePattern (lists.map List.length) seed).map (elementAt? lists) := by
  rw [mergePattern, ← shuffleMerge_map, ← shuffleMerge_map, map_elementAt?_placesIn]

/-- What a merge depends on.  It does not look at the elements: lists whose elements are mapped are
merged as the lists themselves, and then the elements are mapped.  It does not look at empty lists:
putting one in at any place, or leaving all of them out, changes nothing.  So it reads the lists
that have elements along a pattern of places that is made of the seed and their lengths alone, and
every place of the pattern has an element.  In a plan, therefore, clusters of which nothing could be
scheduled have no influence on the order of the others. -/
theorem merge_follows_pattern (seed : UInt64) :
    (∀ {α β : Type} (f : α → β) (lists : List (List α)),
      shuffleMerge (lists.map (List.map f)) seed = (shuffleMerge lists seed).map f) ∧
    (∀ {α : Type} (before after : List (List α)),
      shuffleMerge (before ++ [] :: after) seed = shuffleMerge (before ++ after) seed) ∧
    (∀ {α : Type} (lists : List (List α)),
      shuffleMerge (withElements lists) seed = shuffleMerge lists seed) ∧
    (∀ {α : Type} (lists : List (List α)),
      (shuffleMerge lists seed).map some =
        (mergePattern ((withElements lists).map List.length) seed).map
          (elementAt? (withElements lists))) ∧
    ∀ (s : Settings) (b : Batch) (st : NonceTable),
      (s.planFrom b seed st).value.transactions =
        shuffleMerge (withElements (b.orders st)) seed := by
  refine ⟨fun f lists => shuffleMerge_map f lists seed,
    fun before after => shuffleMerge_insert_nil before after seed,
    fun lists => shuffleMerge_withElements lists seed, fun lists => ?_, fun s b st => ?_⟩
  · rw [← map_some_shuffleMerge, shuffleMerge_withElements]
  · rw [value_planFrom, Batch.transactions_mergedPlan, shuffleMerge_withElements]

end BatchOrder
