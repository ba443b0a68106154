import Mathlib.Data.List.NodupEquivFin
import Mathlib.Data.List.ProdSigma
import Mathlib.Data.List.ReduceOption
import BatchOrder.Proofs.Merge

/-!
# The places from which the elements of a merge come

Lists may hold equal elements, so what a merge does with them is told by places: which list, and
where in it.  As a merge does not look at the elements, the places can be merged first and then be
read in the lists.  So every element of a merge has a place of its own, no place is left out, and
those of one list come in their order.  No slot finds its list empty, and at the end all lists are.

Main results:

- Theorem `Place.shuffleMerge_eq_map_element`: a merge is read off the merge of the places.
- Theorem `Place.pairwise_shuffleMerge_all`: in it the places of one list rise.
- Theorem `serve_shuffledSlots`: every slot gets an element, and nothing is left.
- Theorem `merge_places_once`: a merge takes every element of the lists from its place, once and in
  order.
-/

namespace BatchOrder

variable {α : Type}

/-! ## Places -/

/-- A place in some lists: one of them, and a position in it. -/
abbrev Place (lists : List (List α)) : Type := (i : Fin lists.length) × Fin (lists.get i).length

namespace Place

/-- The element at a place. -/
def element {lists : List (List α)} (p : Place lists) : α := (lists.get p.1).get p.2

/-- The places of every list, in order. -/
def all (lists : List (List α)) : List (List (Place lists)) :=
  (List.finRange lists.length).map fun i => (List.finRange (lists.get i).length).map (Sigma.mk i)

variable {lists : List (List α)}

/-- The lists are what is read at their places. -/
theorem map_element_all (lists : List (List α)) :
    (all lists).map (List.map element) = lists := by
  have hread (i : Fin lists.length) :
      ((List.finRange (lists.get i).length).map (Sigma.mk i)).map element = lists.get i := by
    rw [List.map_map]
    exact List.map_get_finRange _
  rw [all, List.map_map]
  exact (List.map_congr_left fun i _ => hread i).trans (List.map_get_finRange lists)

theorem flatten_all (lists : List (List α)) : (all lists).flatten =
    (List.finRange lists.length).sigma fun i => List.finRange (lists.get i).length := rfl

/-- Every place is among the places of the lists. -/
theorem mem_flatten_all (p : Place lists) : p ∈ (all lists).flatten := by
  rw [flatten_all]
  exact List.mem_sigma.2 ⟨List.mem_finRange _, List.mem_finRange _⟩

/-- No place is there twice. -/
theorem nodup_flatten_all (lists : List (List α)) : (all lists).flatten.Nodup := by
  rw [flatten_all]
  exact (List.nodup_finRange _).sigma fun _ => List.nodup_finRange _

/-- The places of one list, in order. -/
theorem getElem?_all (i : Fin lists.length) :
    (all lists)[i.val]? = some ((List.finRange (lists.get i).length).map (Sigma.mk i)) := by
  have hi : (List.finRange lists.length)[i.val]? = some i := by simp
  rw [all, List.getElem?_map, hi, Option.map_some]

/-- The places of the list at a position are places in that list. -/
theorem fst_eq_of_mem_all {i : Nat} {ps : List (Place lists)} (hi : (all lists)[i]? = some ps)
    {p : Place lists} (hp : p ∈ ps) : p.1.val = i := by
  have hbound : i < lists.length := by simpa [all] using (List.getElem?_eq_some_iff.1 hi).1
  rw [getElem?_all ⟨i, hbound⟩] at hi
  rcases Option.some.inj hi with rfl
  rcases List.mem_map.1 hp with ⟨j, _, rfl⟩
  rfl

/-! ## Merging places -/

/-- A merge of lists is the merge of their places, read in them. -/
theorem shuffleMerge_eq_map_element (lists : List (List α)) (seed : UInt64) :
    shuffleMerge lists seed = (shuffleMerge (all lists) seed).map element := by
  rw [← shuffleMerge_map, map_element_all]

/-- A merge of the places has every place. -/
theorem mem_shuffleMerge_all (seed : UInt64) (p : Place lists) :
    p ∈ shuffleMerge (all lists) seed :=
  (interleaves_shuffleMerge _ seed).perm.mem_iff.2 (mem_flatten_all p)

/-- A merge of the places has no place twice. -/
theorem nodup_shuffleMerge_all (lists : List (List α)) (seed : UInt64) :
    (shuffleMerge (all lists) seed).Nodup :=
  (interleaves_shuffleMerge _ seed).perm.nodup_iff.2 (nodup_flatten_all lists)

/-- Of the places of one list the merge keeps the order. -/
theorem filter_shuffleMerge_all (seed : UInt64) (i : Fin lists.length) :
    (shuffleMerge (all lists) seed).filter (·.1 = i) =
      (List.finRange (lists.get i).length).map (Sigma.mk i) := by
  apply (interleaves_shuffleMerge _ seed).filter_eq (getElem?_all i)
  · intro p hp
    exact decide_eq_true (Fin.ext (fst_eq_of_mem_all (getElem?_all i) hp))
  · intro j ps hij hj p hp hpi
    rw [← of_decide_eq_true hpi] at hij
    exact hij (fst_eq_of_mem_all hj hp)

/-- In a merge of the places those of one list rise. -/
theorem pairwise_shuffleMerge_all (lists : List (List α)) (seed : UInt64) :
    (shuffleMerge (all lists) seed).Pairwise fun p q =>
      p.1 = q.1 → p.2.val < q.2.val := by
  have hrise (i : Fin lists.length) : (shuffleMerge (all lists) seed).Pairwise fun p q =>
      p.1 = i → q.1 = i → p.2.val < q.2.val := by
    have hlist : ((List.finRange (lists.get i).length).map (Sigma.mk i)).Pairwise
        fun p q : Place lists => p.2.val < q.2.val :=
      List.pairwise_map.2 (List.pairwise_lt_finRange _)
    rw [← filter_shuffleMerge_all seed i, List.pairwise_filter] at hlist
    exact hlist.imp fun h hp hq => h (decide_eq_true hp) (decide_eq_true hq)
  rw [List.pairwise_iff_getElem]
  intro k l hk hl hkl hlist
  exact List.pairwise_iff_getElem.1 (hrise _) k l hk hl hkl hlist rfl

end Place

/-! ## Serving slots -/

/-- What every slot gets when slots are filled from the left, `none` if its list has nothing left
for it, and what is left of the lists at the end. -/
def serve : List Nat → Array (List α) → List (Option α) × Array (List α)
  | [], lists => ([], lists)
  | i :: is, lists =>
    match lists[i]? with
    | some (x :: xs) =>
      let served := serve is (lists.setIfInBounds i xs)
      (some x :: served.1, served.2)
    | _ =>
      let served := serve is lists
      (none :: served.1, served.2)

/-- Filling slots passes over those that get nothing. -/
theorem fill_eq_reduceOption (is : List Nat) (lists : Array (List α)) :
    fill is lists = (serve is lists).1.reduceOption := by
  induction is generalizing lists with
  | nil => rfl
  | cons i is ih =>
      rcases hi : lists[i]? with _ | _ | ⟨x, xs⟩
      · simp only [fill, serve, hi, List.reduceOption_cons_of_none, ih]
      · simp only [fill, serve, hi, List.reduceOption_cons_of_none, ih]
      · simp only [fill, serve, hi, List.reduceOption_cons_of_some, ih]

/-- If there are as many slots for every list as it has elements, every slot gets one and nothing is
left. -/
theorem serve_eq (is : List Nat) (lists : Array (List α))
    (hcount : ∀ i, is.count i = (lists[i]?.getD []).length) :
    serve is lists = ((fill is lists).map some, Array.replicate lists.size []) := by
  induction is generalizing lists with
  | nil =>
      have hnil : lists = Array.replicate lists.size [] :=
        Array.eq_replicate_of_mem fun xs hxs =>
          eq_nil_of_count hcount xs (Array.mem_toList_iff.2 hxs)
      exact congrArg (Prod.mk []) hnil
  | cons i is ih =>
      rcases exists_cons_of_count hcount with ⟨x, xs, hi, hrest⟩
      simp only [serve, fill, hi, ih _ hrest, List.map_cons, Array.size_setIfInBounds]

/-- Shuffled slots all get an element, and no list has anything left. -/
theorem serve_shuffledSlots (lists : List (List α)) (seed : UInt64) :
    serve (shuffledSlots lists seed) lists.toArray =
      ((shuffleMerge lists seed).map some, Array.replicate lists.length []) :=
  serve_eq _ lists.toArray (count_shuffledSlots lists seed)

/-! ## Merges -/

/-- If a list is read off one that holds everything of a type once, its positions correspond one to
one to that type, and what holds of pairs in the other list holds of the positions. -/
theorem exists_equiv_of_eq_map {β : Type} [DecidableEq β] {xs : List α} {ps : List β} {f : β → α}
    (hread : xs = ps.map f) (hnodup : ps.Nodup) (hall : ∀ p, p ∈ ps) {r : β → β → Prop}
    (hpairs : ps.Pairwise r) :
    ∃ place : Fin xs.length ≃ β, (∀ k, xs.get k = f (place k)) ∧
      ∀ k l, k < l → r (place k) (place l) := by
  subst hread
  have hlength : (ps.map f).length = ps.length := List.length_map f
  refine ⟨(finCongr hlength).trans (hnodup.getEquivOfForallMemList ps hall), fun k => ?_,
    fun k l hkl => ?_⟩
  · exact List.getElem_map f
  · exact List.pairwise_iff_getElem.1 hpairs k l (hlength ▸ k.isLt) (hlength ▸ l.isLt) hkl

/-- A merge loses nothing and keeps the order of every list.  Its elements correspond one to one to
the places of the lists: each is the element at its place, and the places of one list rise.  So the
merge is a permutation of the lists in a row.  Every slot gets an element, and nothing is left of
the lists. -/
theorem merge_places_once (lists : List (List α)) (seed : UInt64) :
    (∃ place : Fin (shuffleMerge lists seed).length ≃ Place lists,
      (∀ k, (shuffleMerge lists seed).get k = (place k).element) ∧
        ∀ k l, k < l → (place k).1 = (place l).1 → (place k).2.val < (place l).2.val) ∧
      (shuffleMerge lists seed).Perm lists.flatten ∧
      serve (shuffledSlots lists seed) lists.toArray =
        ((shuffleMerge lists seed).map some, Array.replicate lists.length []) := by
  refine ⟨?_, (interleaves_shuffleMerge lists seed).perm, serve_shuffledSlots lists seed⟩
  exact exists_equiv_of_eq_map (Place.shuffleMerge_eq_map_element lists seed)
    (Place.nodup_shuffleMerge_all lists seed) (Place.mem_shuffleMerge_all seed)
    (Place.pairwise_shuffleMerge_all lists seed)

end BatchOrder
