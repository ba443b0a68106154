import Mathlib.Data.List.Forall2
import BatchOrder.Checks

/-!
# What the check on merges decides

The check on a merged sequence keeps a cursor into every list: the next position that an element of
this list may have.  An element of the sequence is looked up, and the cursor of its list jumps
behind it; elements that are jumped over are left out for good.  As no two elements of the lists are
equal, an element that a list can still supply is the one at its place.  So the cursors admit what
follows exactly if, for every list, the elements that it supplies are a subsequence of what stands
behind its cursor.

Elements are compared by the equality of their type, which need not be identity.

Main results:

- Theorem `subsequenceOf_drop_cons_iff`: what a cursor in a list admits.
- Theorems `exists_of_getElem?_places` and `mem_places_iff`: the table of places.
- Theorem `inPlaces_iff`: what the cursors admit together.
- Theorem `keepsOrder_iff`: the check decides whether a sequence keeps the order of every list.
-/

namespace BatchOrder

universe u

variable {α : Type u} [BEq α]

/-! ## Subsequences -/

/-- Whether every element of one list stands, up to equality, in another, in the same order. -/
abbrev SubsequenceOf (ys xs : List α) : Prop := List.SublistForall₂ (· == ·) ys xs

/-- If the equality is identity, that is a sublist. -/
theorem subsequenceOf_iff_sublist [LawfulBEq α] {xs ys : List α} :
    SubsequenceOf ys xs ↔ ys.Sublist xs := by
  simp only [SubsequenceOf, beq_iff_eq, List.sublistForall₂_iff, List.forall₂_eq_eq_eq,
    exists_eq_left']

/-- A subsequence stays one without its first element. -/
theorem SubsequenceOf.of_cons {x : α} {xs ys : List α} (h : SubsequenceOf (x :: ys) xs) :
    SubsequenceOf ys xs := by
  induction xs with
  | nil => cases h
  | cons y xs ih =>
      cases h with
      | cons _ hrest => exact hrest.cons_right
      | cons_right hrest => exact (ih hrest).cons_right

/-- The first element of a subsequence equals one of the list. -/
theorem SubsequenceOf.exists_of_cons {x : α} {xs ys : List α} (h : SubsequenceOf (x :: ys) xs) :
    ∃ y ∈ xs, x == y := by
  induction xs with
  | nil => cases h
  | cons y xs ih =>
      cases h with
      | cons hxy _ => exact ⟨y, List.mem_cons_self, hxy⟩
      | cons_right hrest =>
          rcases ih hrest with ⟨z, hz, hxz⟩
          exact ⟨z, List.mem_cons_of_mem _ hz, hxz⟩

/-- If the first elements are equal, they are paired. -/
theorem subsequenceOf_cons_cons_of_beq {x a : α} {xs ys : List α} (hxa : x == a) :
    SubsequenceOf (x :: ys) (a :: xs) ↔ SubsequenceOf ys xs := by
  constructor
  · intro h
    cases h with
    | cons _ hrest => exact hrest
    | cons_right hrest => exact SubsequenceOf.of_cons hrest
  · exact fun hrest => .cons hxa hrest

/-- If the first elements differ, that of the list is passed over. -/
theorem subsequenceOf_cons_cons_of_ne {x a : α} {xs ys : List α} (hxa : (x == a) = false) :
    SubsequenceOf (x :: ys) (a :: xs) ↔ SubsequenceOf (x :: ys) xs := by
  constructor
  · intro h
    cases h with
    | cons heq _ => rw [hxa] at heq; cases heq
    | cons_right hrest => exact hrest
  · exact .cons_right

/-! ## Cursors -/

variable [EquivBEq α]

/-- Behind a cursor, a list of distinct elements can supply an element and what follows it exactly
if the cursor does not stand behind the place of the element and what follows is supplied behind
that place.  A cursor that has passed the element finds no other one equal to it. -/
theorem subsequenceOf_drop_cons_iff {x y : α} {xs ys : List α} {n i : Nat}
    (hdistinct : xs.Pairwise fun a b => (a == b) = false) (hi : xs[i]? = some y) (hxy : x == y) :
    SubsequenceOf (x :: ys) (xs.drop n) ↔ n ≤ i ∧ SubsequenceOf ys (xs.drop (i + 1)) := by
  induction xs generalizing n i with
  | nil => cases hi
  | cons a xs ih =>
      rcases List.pairwise_cons.1 hdistinct with ⟨hhead, htail⟩
      have hnot (z : α) (hz : z ∈ xs) (hyz : y == z) : (x == a) = false := by
        rw [BEq.congr_left hxy, BEq.congr_left hyz, BEq.comm]
        exact hhead z hz
      cases n with
      | zero =>
          rw [List.drop_zero, List.drop_succ_cons, and_iff_right (Nat.zero_le i)]
          cases i with
          | zero =>
              rcases Option.some.inj hi with rfl
              exact subsequenceOf_cons_cons_of_beq hxy
          | succ i =>
              have hrest := ih (n := 0) htail hi
              rw [List.drop_zero, and_iff_right (Nat.zero_le i)] at hrest
              rw [subsequenceOf_cons_cons_of_ne (hnot y (List.mem_of_getElem? hi) BEq.rfl), hrest]
      | succ n =>
          rw [List.drop_succ_cons, List.drop_succ_cons]
          cases i with
          | zero =>
              rcases Option.some.inj hi with rfl
              constructor
              · intro h
                rcases h.exists_of_cons with ⟨z, hz, hxz⟩
                have hxa := hnot z (List.mem_of_mem_drop hz) (by rwa [← BEq.congr_left hxy])
                rw [hxy] at hxa
                cases hxa
              · exact fun h => absurd h.1 (Nat.not_succ_le_zero n)
          | succ i => rw [ih htail hi, Nat.succ_le_succ_iff]

/-- Of lists without equal elements only one contains an element. -/
theorem eq_of_contains {lists : List (List α)}
    (hdistinct : lists.flatten.Pairwise fun a b => (a == b) = false) {x : α} {l l' : Nat}
    {xs xs' : List α} (hl : lists[l]? = some xs) (hl' : lists[l']? = some xs')
    (hx : xs.contains x) (hx' : xs'.contains x) : l = l' := by
  rcases List.contains_iff_exists_mem_beq.1 hx with ⟨y, hy, hxy⟩
  rcases List.contains_iff_exists_mem_beq.1 hx' with ⟨z, hz, hxz⟩
  have hapart := List.pairwise_iff_getElem.1 (List.pairwise_flatten.1 hdistinct).2
  rcases List.getElem?_eq_some_iff.1 hl with ⟨hbound, rfl⟩
  rcases List.getElem?_eq_some_iff.1 hl' with ⟨hbound', rfl⟩
  rcases Nat.lt_trichotomy l l' with hlt | heq | hgt
  · have hyz := hapart l l' hbound hbound' hlt y hy z hz
    rw [BEq.trans (BEq.symm hxy) hxz] at hyz
    cases hyz
  · exact heq
  · have hzy := hapart l' l hbound' hbound hgt z hz y hy
    rw [BEq.trans (BEq.symm hxz) hxy] at hzy
    cases hzy

/-- If an element is the one at a place, the cursor of the list there admits it by not standing
behind that place, and then jumps behind it.  The other lists do not supply the element. -/
theorem subsequenceOf_cons_iff {lists : List (List α)}
    (hdistinct : lists.flatten.Pairwise fun a b => (a == b) = false) {x y : α} {l i : Nat}
    {xs : List α} (hl : lists[l]? = some xs) (hi : xs[i]? = some y) (hxy : x == y) (rest : List α)
    (next : Std.HashMap Nat Nat) {k : Nat} {zs : List α} (hk : lists[k]? = some zs) :
    SubsequenceOf ((x :: rest).filter zs.contains) (zs.drop (next.getD k 0)) ↔
      (l = k → next.getD k 0 ≤ i) ∧
        SubsequenceOf (rest.filter zs.contains)
          (zs.drop ((next.insert l (i + 1)).getD k 0)) := by
  have hx : xs.contains x :=
    List.contains_iff_exists_mem_beq.2 ⟨y, List.mem_of_getElem? hi, hxy⟩
  by_cases hlk : l = k
  · subst hlk
    rcases Option.some.inj (hl.symm.trans hk) with rfl
    have hxs := (List.pairwise_flatten.1 hdistinct).1 xs (List.mem_of_getElem? hl)
    rw [List.filter_cons_of_pos hx, Std.HashMap.getD_insert_self, forall_prop_of_true rfl]
    exact subsequenceOf_drop_cons_iff hxs hi hxy
  · have hz : ¬ zs.contains x := fun hz => hlk (eq_of_contains hdistinct hl hk hx hz)
    have hcursor : (next.insert l (i + 1)).getD k 0 = next.getD k 0 := by
      rw [Std.HashMap.getD_insert, if_neg (by simpa using hlk)]
    rw [List.filter_cons_of_neg hz, hcursor, and_iff_right fun h => absurd h hlk]

/-! ## Places -/

/-- The elements of the lists, each with its list and its position there. -/
def placed {α : Type u} (lists : List (List α)) : List (α × Nat × Nat) :=
  lists.zipIdx.flatMap fun l => l.1.zipIdx.map fun e => (e.1, l.2, e.2)

/-- Every element is entered with its list and its place there. -/
theorem mem_placed_iff {α : Type u} {lists : List (List α)} {x : α} {l i : Nat} :
    (x, l, i) ∈ placed lists ↔ ∃ xs, lists[l]? = some xs ∧ xs[i]? = some x := by
  simp only [placed, List.mem_flatMap, List.mem_map, Prod.exists, Prod.mk.injEq,
    List.mem_zipIdx_iff_getElem?]
  constructor
  · rintro ⟨xs, _, hxs, _, _, hx, rfl, rfl, rfl⟩
    exact ⟨xs, hxs, hx⟩
  · rintro ⟨xs, hxs, hx⟩
    exact ⟨xs, l, hxs, x, i, hx, rfl, rfl, rfl⟩

/-- The table of places enters all elements one after another. -/
theorem places_eq_foldl {α : Type u} [BEq α] [Hashable α] (lists : List (List α)) :
    places lists = (placed lists).foldl (fun m e => m.insert e.1 e.2) ∅ := by
  simp only [places, placed, List.foldl_flatMap, List.foldl_map]

variable [Hashable α] [LawfulHashable α]

/-- A place that is found holds an equal element. -/
theorem exists_of_getElem?_places {lists : List (List α)} {x : α} {l i : Nat}
    (h : (places lists)[x]? = some (l, i)) :
    ∃ xs y, lists[l]? = some xs ∧ xs[i]? = some y ∧ x == y := by
  have hfold (es : List (α × Nat × Nat)) (m : Std.HashMap α (Nat × Nat))
      (h : (es.foldl (fun m e => m.insert e.1 e.2) m)[x]? = some (l, i)) :
      m[x]? = some (l, i) ∨ ∃ y, (y, l, i) ∈ es ∧ x == y := by
    induction es generalizing m with
    | nil => exact .inl h
    | cons e es ih =>
        rcases ih _ h with h | ⟨y, hy, hxy⟩
        · rw [Std.HashMap.getElem?_insert] at h
          split at h
          · next hex =>
            rw [← Option.some.inj h]
            exact .inr ⟨e.1, List.mem_cons_self, BEq.symm hex⟩
          · exact .inl h
        · exact .inr ⟨y, List.mem_cons_of_mem _ hy, hxy⟩
  rw [places_eq_foldl] at h
  rcases hfold _ _ h with h | ⟨y, hy, hxy⟩
  · simp at h
  · rcases mem_placed_iff.1 hy with ⟨xs, hxs, hi⟩
    exact ⟨xs, y, hxs, hi, hxy⟩

/-- Exactly the elements of the lists are found, up to equality. -/
theorem mem_places_iff {lists : List (List α)} {x : α} :
    x ∈ places lists ↔ ∃ xs ∈ lists, xs.contains x := by
  have hfold (es : List (α × Nat × Nat)) (m : Std.HashMap α (Nat × Nat)) :
      x ∈ es.foldl (fun m e => m.insert e.1 e.2) m ↔ x ∈ m ∨ ∃ e ∈ es, x == e.1 := by
    induction es generalizing m with
    | nil => simp
    | cons e es ih =>
        rw [List.foldl_cons, ih, Std.HashMap.mem_insert, BEq.comm, List.exists_mem_cons_iff,
          or_assoc, or_left_comm]
  rw [places_eq_foldl, hfold]
  simp only [Std.HashMap.not_mem_empty, false_or, List.contains_iff_exists_mem_beq]
  constructor
  · rintro ⟨⟨y, l, i⟩, he, hxy⟩
    rcases mem_placed_iff.1 he with ⟨xs, hxs, hi⟩
    exact ⟨xs, List.mem_of_getElem? hxs, y, List.mem_of_getElem? hi, hxy⟩
  · rintro ⟨xs, hxs, y, hy, hxy⟩
    rcases List.getElem?_of_mem hxs with ⟨l, hl⟩
    rcases List.getElem?_of_mem hy with ⟨i, hi⟩
    exact ⟨(y, l, i), mem_placed_iff.2 ⟨xs, hl, hi⟩, hxy⟩

/-! ## The check -/

/-- Cursors admit a sequence exactly if every element is in one of the lists and, for every list,
its elements in the sequence are a subsequence of what stands behind the cursor. -/
theorem inPlaces_iff {lists : List (List α)}
    (hdistinct : lists.flatten.Pairwise fun a b => (a == b) = false) (next : Std.HashMap Nat Nat)
    (merged : List α) :
    inPlaces (places lists) next merged = true ↔
      (∀ x ∈ merged, ∃ xs ∈ lists, xs.contains x) ∧
        ∀ (k : Nat) (zs : List α), lists[k]? = some zs →
          SubsequenceOf (merged.filter zs.contains) (zs.drop (next.getD k 0)) := by
  induction merged generalizing next with
  | nil => simp [inPlaces, List.SublistForall₂.nil]
  | cons x rest ih =>
      rw [List.forall_mem_cons, ← mem_places_iff, Std.HashMap.mem_iff_isSome_getElem?, inPlaces]
      cases hplace : (places lists)[x]? with
      | none => simp
      | some place =>
          rcases place with ⟨l, i⟩
          rcases exists_of_getElem?_places hplace with ⟨xs, y, hl, hi, hxy⟩
          have hstep (k : Nat) (zs : List α) (hk : lists[k]? = some zs) :=
            subsequenceOf_cons_iff hdistinct hl hi hxy rest next hk
          rw [Bool.and_eq_true, decide_eq_true_eq, ih, Option.isSome_some, and_iff_right rfl,
            and_left_comm]
          apply and_congr_right'
          constructor
          · rintro ⟨hle, hrest⟩ k zs hk
            exact (hstep k zs hk).2 ⟨fun hlk => hlk ▸ hle, hrest k zs hk⟩
          · intro hall
            refine ⟨((hstep l xs hl).1 (hall l xs hl)).1 rfl, fun k zs hk => ?_⟩
            exact ((hstep k zs hk).1 (hall k zs hk)).2

/-- The check decides whether a sequence keeps the order of lists that have no two equal elements,
in one list or in two.  It succeeds exactly if every element of the sequence is in one of the lists
and, for every list, its elements in the sequence are a subsequence of it.  So nothing is repeated
and nothing stands out of order, but elements may be left out. -/
theorem keepsOrder_iff {lists : List (List α)}
    (hdistinct : lists.flatten.Pairwise fun a b => (a == b) = false) (merged : List α) :
    keepsOrder lists merged = true ↔
      (∀ x ∈ merged, ∃ xs ∈ lists, xs.contains x) ∧
        ∀ xs ∈ lists, SubsequenceOf (merged.filter xs.contains) xs := by
  rw [keepsOrder, inPlaces_iff hdistinct]
  apply and_congr_right'
  simp only [Std.HashMap.getD_empty, List.drop_zero]
  constructor
  · intro h xs hxs
    rcases List.getElem?_of_mem hxs with ⟨l, hl⟩
    exact h l xs hl
  · exact fun h l xs hl => h xs (List.mem_of_getElem? hl)

/-- A merge that leaves elements out keeps the order of two lists, and one that repeats an element
does not. -/
theorem keepsOrder_of_counting :
    EquivBEq Nat ∧ LawfulHashable Nat ∧
      [[1, 2, 3], [], [10, 20]].flatten.Pairwise (fun a b => (a == b) = false) ∧
      keepsOrder [[1, 2, 3], [], [10, 20]] [10, 2, 20, 3] = true ∧
      keepsOrder [[1, 2, 3], [], [10, 20]] [2, 10, 2] = false := by
  have hdistinct : [[1, 2, 3], [], [10, 20]].flatten.Pairwise
      (fun a b => (a == b) = false) := by decide
  refine ⟨inferInstance, inferInstance, hdistinct, ?_, ?_⟩
  · rw [keepsOrder_iff hdistinct]
    simp only [subsequenceOf_iff_sublist]
    decide
  · rw [Bool.eq_false_iff, Ne, keepsOrder_iff hdistinct]
    simp only [subsequenceOf_iff_sublist]
    decide

end BatchOrder
