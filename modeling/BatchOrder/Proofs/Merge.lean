import BatchOrder.Merge
import BatchOrder.Proofs.Replay

/-!
# Merges and their replays

Whatever the seed, a merge interleaves the lists: it takes, until nothing is left, the first element
of some list.  If the lists are orders of clusters that share no account, an interleaving of them
can be replayed whenever each of them can, and every cluster ends with the nonces that its own order
gives it.

Main results:

- Theorem `interleaves_shuffleMerge`: a merge is an interleaving.
- Theorems `Interleaves.perm` and `Interleaves.filter_eq`: an interleaving has the elements of the
  lists, those of every list in their order.
- Theorem `shuffleMerge_map`: a merge does not look at the elements.
- Theorem `replay?_of_interleaves`: orders without a common account can be replayed interleaved.
- Theorem `exists_replay?_of_interleaves`: all interleavings of them end in the same nonces.
-/

namespace BatchOrder

/-! ## Interleavings -/

section Interleavings

variable {α : Type}

/-- The sequences that arise from lists by taking, until nothing is left, the first element of one
of them. -/
inductive Interleaves : List (List α) → List α → Prop
  | done {lists : List (List α)} (hempty : ∀ xs ∈ lists, xs = []) : Interleaves lists []
  | take {lists : List (List α)} {i : Nat} {x : α} {xs merged : List α}
      (hfirst : lists[i]? = some (x :: xs)) (hrest : Interleaves (lists.set i xs) merged) :
      Interleaves lists (x :: merged)

/-- Nothing is lost and nothing doubled. -/
theorem Interleaves.perm {lists : List (List α)} {merged : List α} (h : Interleaves lists merged) :
    merged.Perm lists.flatten := by
  induction h with
  | done hempty => rw [List.flatten_eq_nil_iff.2 hempty]
  | @take lists i x xs merged hfirst _ ih =>
      rcases List.getElem?_eq_some_iff.1 hfirst with ⟨hi, hget⟩
      have hlists : lists = lists.take i ++ (x :: xs) :: lists.drop (i + 1) := by
        rw [← hget, List.getElem_cons_drop, List.take_append_drop]
      rw [List.set_eq_take_append_cons_drop, if_pos hi] at ih
      have hmoved : (x :: (lists.take i ++ xs :: lists.drop (i + 1)).flatten).Perm
          (lists.take i ++ (x :: xs) :: lists.drop (i + 1)).flatten := by
        simp only [List.flatten_append, List.flatten_cons, List.cons_append]
        exact List.perm_middle.symm
      rw [hlists]
      exact (ih.cons x).trans hmoved

theorem Interleaves.nil_cons {lists : List (List α)} {merged : List α}
    (h : Interleaves lists merged) : Interleaves ([] :: lists) merged := by
  induction h with
  | done hempty => exact .done (List.forall_mem_cons.2 ⟨rfl, hempty⟩)
  | @take lists i x xs merged hfirst _ ih => exact .take (i := i + 1) hfirst ih

/-- One list after another is an interleaving. -/
theorem interleaves_flatten (lists : List (List α)) : Interleaves lists lists.flatten := by
  induction lists with
  | nil => exact .done fun _ hxs => nomatch hxs
  | cons xs lists ih =>
      induction xs with
      | nil => exact ih.nil_cons
      | cons x xs ihxs => exact .take (i := 0) rfl ihxs

/-- An interleaving has the elements of the lists. -/
theorem Interleaves.mem_iff {lists : List (List α)} {merged : List α}
    (h : Interleaves lists merged) (y : α) : y ∈ merged ↔ ∃ xs ∈ lists, y ∈ xs := by
  rw [h.perm.mem_iff, List.mem_flatten]

/-- A condition that only the elements of one list satisfy finds that list, in its order. -/
theorem Interleaves.filter_eq {lists : List (List α)} {merged : List α}
    (h : Interleaves lists merged) {p : α → Bool} {i : Nat} {ys : List α}
    (hi : lists[i]? = some ys) (hin : ∀ y ∈ ys, p y)
    (hout : ∀ (j : Nat) (zs : List α), i ≠ j → lists[j]? = some zs → ∀ z ∈ zs, ¬ p z) :
    merged.filter p = ys := by
  induction h generalizing ys with
  | done hempty =>
      rw [hempty ys (List.mem_of_getElem? hi)]
      rfl
  | @take lists j x xs merged hfirst _ ih =>
      have hj : j < lists.length := (List.getElem?_eq_some_iff.1 hfirst).1
      have hout' (k : Nat) (zs : List α) (hik : i ≠ k) (hk : (lists.set j xs)[k]? = some zs)
          (z : α) (hz : z ∈ zs) : ¬ p z := by
        by_cases hjk : j = k
        · subst hjk
          rw [List.getElem?_set_self hj] at hk
          obtain rfl := Option.some.inj hk
          exact hout j _ hik hfirst z (List.mem_cons_of_mem _ hz)
        · rw [List.getElem?_set_ne hjk] at hk
          exact hout k zs hik hk z hz
      by_cases hij : i = j
      · subst hij
        obtain rfl := Option.some.inj (hfirst.symm.trans hi)
        rw [List.filter_cons_of_pos (hin x List.mem_cons_self)]
        apply congrArg (List.cons x)
        exact ih (List.getElem?_set_self hj) (fun y hy => hin y (List.mem_cons_of_mem _ hy)) hout'
      · rw [List.filter_cons_of_neg (hout j _ hij hfirst x List.mem_cons_self)]
        refine ih ?_ hin hout'
        rw [List.getElem?_set_ne (Ne.symm hij)]
        exact hi

/-- There are as many slots for a list as it has elements. -/
theorem count_slots (lists : List (List α)) (i : Nat) :
    (slots lists).count i = (lists[i]?.getD []).length := by
  have hfrom (n : Nat) : ((lists.zipIdx n).flatMap fun e => List.replicate e.1.length e.2).count i =
      if n ≤ i then (lists[i - n]?.getD []).length else 0 := by
    induction lists generalizing n with
    | nil => simp
    | cons xs lists ih =>
        rw [List.zipIdx_cons, List.flatMap_cons, List.count_append, ih, List.count_replicate]
        by_cases hni : n = i
        · subst hni
          have hlt : ¬ n + 1 ≤ n := by omega
          simp [hlt]
        · by_cases hlt : n + 1 ≤ i
          · have hsub : i - n = (i - (n + 1)) + 1 := by omega
            have hle : n ≤ i := by omega
            simp [hni, hlt, hle, hsub]
          · have hle : ¬ n ≤ i := by omega
            simp [hni, hlt, hle]
  have hzero := hfrom 0
  rwa [if_pos (Nat.zero_le i), Nat.sub_zero] at hzero

/-- If there is a slot for every element, the first slot finds one, and there is a slot for every
element that is left. -/
theorem exists_cons_of_count {i : Nat} {is : List Nat} {lists : Array (List α)}
    (hcount : ∀ j, (i :: is).count j = (lists[j]?.getD []).length) :
    ∃ x xs, lists[i]? = some (x :: xs) ∧
      ∀ j, is.count j = ((lists.setIfInBounds i xs)[j]?.getD []).length := by
  have hlen := hcount i
  rw [List.count_cons_self] at hlen
  rcases hi : lists[i]? with _ | _ | ⟨x, xs⟩
  · rw [hi] at hlen
    cases hlen
  · rw [hi] at hlen
    cases hlen
  · have hbound : i < lists.size := (Array.getElem?_eq_some_iff.1 hi).1
    refine ⟨x, xs, rfl, fun j => ?_⟩
    have hj := hcount j
    by_cases hij : i = j
    · subst hij
      rw [hi] at hlen
      rw [Array.getElem?_setIfInBounds_self_of_lt hbound]
      exact Nat.succ.inj hlen
    · rw [List.count_cons_of_ne hij] at hj
      rw [hj, Array.getElem?_setIfInBounds_ne hij]

/-- If there is no slot, there is no element. -/
theorem eq_nil_of_count {lists : Array (List α)}
    (hcount : ∀ i : Nat, [].count i = (lists[i]?.getD []).length) :
    ∀ xs ∈ lists.toList, xs = [] := by
  intro xs hxs
  rcases List.getElem?_of_mem hxs with ⟨i, hi⟩
  have hlen := hcount i
  rw [← Array.getElem?_toList, hi] at hlen
  exact List.eq_nil_of_length_eq_zero hlen.symm

/-- Slots that are as many for every list as it has elements are filled with an interleaving. -/
theorem interleaves_fill (is : List Nat) (lists : Array (List α))
    (hcount : ∀ i, is.count i = (lists[i]?.getD []).length) :
    Interleaves lists.toList (fill is lists) := by
  induction is generalizing lists with
  | nil => exact .done (eq_nil_of_count hcount)
  | cons i is ih =>
      rcases exists_cons_of_count hcount with ⟨x, xs, hi, hrest⟩
      have hmerged := ih (lists.setIfInBounds i xs) hrest
      rw [Array.toList_setIfInBounds] at hmerged
      simp only [fill, hi]
      exact .take (by rw [Array.getElem?_toList, hi]) hmerged

/-- The slots for the elements of some lists in the order that a seed gives them. -/
def shuffledSlots (lists : List (List α)) (seed : UInt64) : List Nat :=
  (Random.shuffle (slots lists).toArray (Random.Keystream.ofSeed seed)).toList

/-- A merge fills the shuffled slots. -/
theorem shuffleMerge_eq_fill (lists : List (List α)) (seed : UInt64) :
    shuffleMerge lists seed = fill (shuffledSlots lists seed) lists.toArray := rfl

/-- However they are shuffled, there are as many slots for a list as it has elements. -/
theorem count_shuffledSlots (lists : List (List α)) (seed : UInt64) (i : Nat) :
    (shuffledSlots lists seed).count i = (lists.toArray[i]?.getD []).length := by
  have hperm := Random.perm_shuffle (slots lists).toArray (Random.Keystream.ofSeed seed)
  rw [shuffledSlots, hperm.toList.count_eq, List.getElem?_toArray]
  exact count_slots lists i

/-- A merge is an interleaving, whatever the seed. -/
theorem interleaves_shuffleMerge (lists : List (List α)) (seed : UInt64) :
    Interleaves lists (shuffleMerge lists seed) := by
  rw [shuffleMerge_eq_fill]
  exact interleaves_fill _ lists.toArray (count_shuffledSlots lists seed)

/-- Filling slots looks at the lengths of the lists only. -/
theorem fill_map {β : Type} (f : α → β) (is : List Nat) (lists : Array (List α)) :
    fill is (lists.map (List.map f)) = (fill is lists).map f := by
  induction is generalizing lists with
  | nil => rfl
  | cons i is ih =>
      have hget : (lists.map (List.map f))[i]? = lists[i]?.map (List.map f) := Array.getElem?_map
      simp only [fill, hget]
      cases hi : lists[i]? with
      | none => exact ih lists
      | some list =>
          cases list with
          | nil => exact ih lists
          | cons x xs =>
              simp only [Option.map_some, List.map_cons, ← Array.map_setIfInBounds, ih]

/-- The slots depend on the lengths of the lists only. -/
theorem slots_map {β : Type} (f : α → β) (lists : List (List α)) :
    slots (lists.map (List.map f)) = slots lists := by
  unfold slots
  rw [List.zipIdx_map, List.flatMap_map]
  simp

/-- A merge does not look at the elements. -/
theorem shuffleMerge_map {β : Type} (f : α → β) (lists : List (List α)) (seed : UInt64) :
    shuffleMerge (lists.map (List.map f)) seed = (shuffleMerge lists seed).map f := by
  unfold shuffleMerge
  rw [slots_map, ← fill_map, List.map_toArray]

end Interleavings

/-! ## Replays of interleavings -/

open NonceTable

/-- Interleaved orders that can be replayed and share no account can be replayed together, and every
one of them has the effect on its accounts that it has alone.  A transaction of one order leaves the
accounts of all others as they were. -/
theorem replay?_of_interleaves {orders : List Batch} {merged : Batch}
    (h : Interleaves orders merged) {accounts : Nat → Set Address}
    (hapart : ∀ i j, i ≠ j → ∀ s ∈ accounts i, s ∉ accounts j) {st : NonceTable}
    (hnamed : ∀ (i : Nat) (order : Batch), orders[i]? = some order →
      ∀ a ∈ order.actions, a.sender ∈ accounts i)
    (hreplay : ∀ (i : Nat) (order : Batch), orders[i]? = some order →
      ∃ u, st.replay? order = some u) :
    ∃ final, st.replay? merged = some final ∧
      ∀ (i : Nat) (order : Batch) (u : NonceTable), orders[i]? = some order →
        st.replay? order = some u → AgreesOn (accounts i) u final := by
  induction h generalizing st with
  | @done orders hempty =>
      refine ⟨st, rfl, fun i order u hi hu => ?_⟩
      rw [hempty order (List.mem_of_getElem? hi)] at hu
      rcases Option.some.inj hu with rfl
      exact AgreesOn.refl st
  | @take orders i tx order merged hfirst _ ih =>
      have hi : i < orders.length := (List.getElem?_eq_some_iff.1 hfirst).1
      rcases hreplay i _ hfirst with ⟨u, hu⟩
      rcases replay?_cons_eq_some_iff.1 hu with ⟨v, hexec, hrest⟩
      have hother (j : Nat) (hij : i ≠ j) : AgreesOn (accounts j) st v := by
        refine agreesOn_of_execute? hexec fun a ha hj => ?_
        exact hapart i j hij _ (hnamed i _ hfirst a (List.mem_append_left _ ha)) hj
      have hmains (j : Nat) (c : Batch) (hj : orders[j]? = some c) (tx' : Transaction)
          (htx' : tx' ∈ c) : tx'.main.sender ∈ accounts j :=
        hnamed j c hj _ (Batch.main_mem_actions htx')
      have hset (j : Nat) (c : Batch) (hj : (orders.set i order)[j]? = some c) :
          (i = j ∧ order = c) ∨ (i ≠ j ∧ orders[j]? = some c) := by
        by_cases hij : i = j
        · subst hij
          rw [List.getElem?_set_self hi] at hj
          exact .inl ⟨rfl, Option.some.inj hj⟩
        · rw [List.getElem?_set_ne hij] at hj
          exact .inr ⟨hij, hj⟩
      have hnamed' (j : Nat) (c : Batch) (hj : (orders.set i order)[j]? = some c) (a : Action)
          (ha : a ∈ c.actions) : a.sender ∈ accounts j := by
        rcases hset j c hj with ⟨rfl, rfl⟩ | ⟨_, hj⟩
        · exact hnamed i _ hfirst a (List.mem_append_right _ ha)
        · exact hnamed j c hj a ha
      have hreplay' (j : Nat) (c : Batch) (hj : (orders.set i order)[j]? = some c) :
          ∃ w, v.replay? c = some w := by
        rcases hset j c hj with ⟨rfl, rfl⟩ | ⟨hij, hj⟩
        · exact ⟨u, hrest⟩
        · rcases hreplay j c hj with ⟨w, hw⟩
          rcases (hother j hij).replay? (hmains j c hj) hw with ⟨w', hw', _⟩
          exact ⟨w', hw'⟩
      rcases ih hnamed' hreplay' with ⟨final, hfinal, hagree⟩
      refine ⟨final, replay?_cons_eq_some_iff.2 ⟨v, hexec, hfinal⟩, ?_⟩
      intro j c w hj hw
      by_cases hij : i = j
      · subst hij
        rcases Option.some.inj (hfirst.symm.trans hj) with rfl
        rcases Option.some.inj (hu.symm.trans hw) with rfl
        exact hagree i order u (List.getElem?_set_self hi) hrest
      · rcases (hother j hij).replay? (hmains j c hj) hw with ⟨w', hw', hww⟩
        exact hww.trans (hagree j c w' (by rw [List.getElem?_set_ne hij, hj]) hw')

/-- However orders without a common account are interleaved, their replay ends in the same
nonces. -/
theorem exists_replay?_of_interleaves {orders : List Batch} {merged merged' : Batch}
    (h : Interleaves orders merged) (h' : Interleaves orders merged') {accounts : Nat → Set Address}
    (hapart : ∀ i j, i ≠ j → ∀ s ∈ accounts i, s ∉ accounts j) {st : NonceTable}
    (hnamed : ∀ (i : Nat) (order : Batch), orders[i]? = some order →
      ∀ a ∈ order.actions, a.sender ∈ accounts i)
    (hreplay : ∀ (i : Nat) (order : Batch), orders[i]? = some order →
      ∃ u, st.replay? order = some u)
    (hlast : ∀ order ∈ orders, ∀ a ∈ order.actions, a.nonce < Nonce.last) :
    ∃ final, st.replay? merged = some final ∧ st.replay? merged' = some final := by
  have hmem {m : Batch} (hm : Interleaves orders m) (a : Action) (ha : a ∈ m.actions) :
      ∃ order ∈ orders, a ∈ order.actions := by
    rcases List.mem_flatMap.1 ha with ⟨tx, htx, hact⟩
    rcases (hm.mem_iff tx).1 htx with ⟨order, horder, hin⟩
    exact ⟨order, horder, List.mem_flatMap.2 ⟨tx, hin, hact⟩⟩
  have hraised {m : Batch} {u : NonceTable} (hm : Interleaves orders m)
      (hu : st.replay? m = some u) : Raised st u := by
    apply raised_of_replay? hu
    intro a ha
    rcases hmem hm a ha with ⟨order, horder, hact⟩
    exact hlast order horder a hact
  rcases replay?_of_interleaves h hapart hnamed hreplay with ⟨u, hu, hagree⟩
  rcases replay?_of_interleaves h' hapart hnamed hreplay with ⟨u', hu', hagree'⟩
  have hget (s : Address) : u.get s = u'.get s := by
    by_cases hs : ∃ (i : Nat) (order : Batch), orders[i]? = some order ∧ s ∈ accounts i
    · rcases hs with ⟨i, order, hi, hs⟩
      rcases hreplay i order hi with ⟨v, hv⟩
      exact (hagree i order v hi hv s hs).symm.trans (hagree' i order v hi hv s hs)
    · have hout {m : Batch} (hm : Interleaves orders m) (a : Action) (ha : a ∈ m.actions) :
          a.sender ∉ ({s} : Set Address) := by
        intro has
        rcases hmem hm a ha with ⟨order, horder, hact⟩
        rcases List.getElem?_of_mem horder with ⟨i, hi⟩
        exact hs ⟨i, order, hi, has ▸ hnamed i order hi a hact⟩
      calc u.get s = st.get s := (agreesOn_of_replay? hu (hout h) s rfl).symm
        _ = u'.get s := agreesOn_of_replay? hu' (hout h') s rfl
  rcases (hraised h hu).eq_of_get_eq (hraised h' hu') hget with rfl
  exact ⟨u, hu, hu'⟩

end BatchOrder
