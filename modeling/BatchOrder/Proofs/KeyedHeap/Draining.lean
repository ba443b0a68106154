import Mathlib.Data.List.Nodup
import BatchOrder.Proofs.KeyedHeap.Contents
import BatchOrder.Proofs.KeyedHeap.Order
import BatchOrder.Standing

/-!
# The order in which entries leave a keyed heap

If the comparison is a total preorder, every run of operations leaves the heap in order, and the
entry on top has a greatest value.  So whatever is taken out is a greatest entry of those that are
left, and a heap that is emptied gives out every entry once, in descending order of the values.

Main results:

- Theorem `ordered_run`: a heap is in order after every run.
- Theorem `Ordered.compare_top?`: the top has a greatest value.
- Theorems `Indexed.perm_drain` and `Ordered.pairwise_drain`: the entries leave a heap once each and
  in descending order.
- Theorem `run_serves_greatest`: a heap is a priority queue after every run.
-/

namespace BatchOrder

namespace KeyedHeap

universe u v

variable {κ : Type u} {ν : Type v} [BEq κ] [Hashable κ] {cmp : ν → ν → Ordering}
variable {h h' : KeyedHeap κ ν cmp} {e : κ × ν}

/-! ## Order along a run -/

/-- Every change keeps a heap in order. -/
theorem Ordered.change [Std.TransCmp cmp] (ho : h.Ordered) (c : Change κ ν) :
    (h.change c).Ordered := by
  cases c with
  | add k x => exact ho.add k x
  | update k x => exact ho.update k x
  | pop =>
      rcases change_pop h with hsame | ⟨e, hpop⟩
      · rw [hsame]
        exact ho
      · exact ho.pop? hpop

/-- A heap is in order after every run. -/
theorem ordered_run [Std.TransCmp cmp] (changes : List (Change κ ν)) :
    (run changes : KeyedHeap κ ν cmp).Ordered :=
  run_induction ordered_empty (fun _ c ho => ho.change c) changes

/-- No entry of an ordered heap compares greater than the top. -/
theorem Ordered.compare_top? [Std.TransCmp cmp] (ho : h.Ordered) {top : κ × ν}
    (htop : h.top? = some top) (he : e ∈ h.entries.toList) : cmp e.2 top.2 ≠ .gt := by
  intro hgt
  rcases List.mem_iff_getElem?.1 he with ⟨i, hi⟩
  rw [Array.getElem?_toList] at hi
  exact ho.not_beats_top i (beats_iff.2 ⟨e, top, hi, htop, hgt⟩)

/-! ## Taking entries out -/

/-- A heap from which nothing can be taken is empty. -/
theorem entries_eq_nil_of_pop?_eq_none (hpop : h.pop? = none) : h.entries.toList = [] := by
  have hsize := Array.getElem?_eq_none_iff.1 (top?_eq_none_of_pop? hpop)
  exact List.eq_nil_of_length_eq_zero (Nat.le_zero.1 hsize)

section Lawful

variable [LawfulBEq κ]

/-- What is left and what is taken out make up the heap.  A key has one value only, so the one entry
with the key of the top is the top itself. -/
theorem Indexed.perm_of_pop? (hh : h.Indexed) (hpop : h.pop? = some (e, h')) :
    h.entries.toList.Perm (e :: h'.entries.toList) := by
  rcases hh.pop? hpop with ⟨hh', hvalue, hrest⟩
  have hgone : e ∉ h'.entries.toList := by
    rw [hh'.mem_entries_iff, hrest, beq_self_eq_true, if_pos rfl]
    exact nofun
  have hnodup : (e :: h'.entries.toList).Nodup :=
    List.nodup_cons.2 ⟨hgone, hh'.nodup_keys.of_map⟩
  rw [List.perm_ext_iff_of_nodup hh.nodup_keys.of_map hnodup]
  intro x
  rw [List.mem_cons, hh.mem_entries_iff, hh'.mem_entries_iff, hrest]
  by_cases hkey : e.1 = x.1
  · rw [← hkey, hvalue, beq_self_eq_true, if_pos rfl]
    constructor
    · intro hx
      exact .inl (Prod.ext hkey.symm (Option.some.inj hx).symm)
    · rintro (rfl | hx)
      · rfl
      · cases hx
  · rw [beq_eq_false_iff_ne.2 hkey, if_neg Bool.false_ne_true]
    constructor
    · exact .inr
    · rintro (rfl | hx)
      · exact absurd rfl hkey
      · exact hx

/-- Every entry leaves the heap once. -/
theorem Indexed.perm_drain (hh : h.Indexed) : h.drain.Perm h.entries.toList := by
  fun_induction KeyedHeap.drain h with
  | case1 h hpop =>
      rw [entries_eq_nil_of_pop?_eq_none hpop]
  | case2 h e rest hpop ih =>
      exact ((ih (hh.pop? hpop).1).cons e).trans (hh.perm_of_pop? hpop).symm

/-- No entry leaves the heap before one with a greater value. -/
theorem Ordered.pairwise_drain [Std.TransCmp cmp] (ho : h.Ordered) (hh : h.Indexed) :
    h.drain.Pairwise fun e e' => cmp e'.2 e.2 ≠ .gt := by
  fun_induction KeyedHeap.drain h with
  | case1 => exact List.Pairwise.nil
  | case2 h e rest hpop ih =>
      have hh' := (hh.pop? hpop).1
      refine List.Pairwise.cons (fun e' he' => ?_) (ih (ho.pop? hpop) hh')
      have hmem : e' ∈ h.entries.toList :=
        (hh.perm_of_pop? hpop).mem_iff.2 (List.mem_cons_of_mem e (hh'.perm_drain.mem_iff.1 he'))
      exact ho.compare_top? (top?_of_pop? hpop) hmem

/-- A heap is a priority queue: if it has entries, the one reported on top is the one taken out, and
none compares greater; and when it is emptied the entries leave it once each, with distinct keys,
and none compares greater than one before it. -/
structure ServesGreatest (h : KeyedHeap κ ν cmp) : Prop where
  greatest : h.entries.toList ≠ [] → ∃ top rest, h.top? = some top ∧ h.pop? = some (top, rest) ∧
    h.entries.toList.Perm (top :: rest.entries.toList) ∧
    ∀ e ∈ h.entries.toList, cmp e.2 top.2 ≠ .gt
  drained : h.drain.Perm h.entries.toList
  once : (h.drain.map Prod.fst).Nodup
  descending : h.drain.Pairwise fun e e' => cmp e'.2 e.2 ≠ .gt

/-- A heap in order whose positions and entries are inverse is a priority queue. -/
theorem Ordered.servesGreatest [Std.TransCmp cmp] (ho : h.Ordered) (hh : h.Indexed) :
    h.ServesGreatest where
  greatest hne := by
    cases hpop : h.pop? with
    | none => exact absurd (entries_eq_nil_of_pop?_eq_none hpop) hne
    | some popped =>
        have htop := top?_of_pop? hpop
        exact ⟨popped.1, popped.2, htop, rfl, hh.perm_of_pop? hpop, fun _ => ho.compare_top? htop⟩
  drained := hh.perm_drain
  once := (hh.perm_drain.map Prod.fst).nodup_iff.2 hh.nodup_keys
  descending := ho.pairwise_drain hh

/-- With any total preorder, as the natural order of a type or its reverse, a heap serves the
greatest entry after every run. -/
theorem run_serves_greatest [Std.TransCmp cmp] (changes : List (Change κ ν)) :
    (run changes : KeyedHeap κ ν cmp).ServesGreatest ∧
      (run changes : KeyedHeap κ ν fun x y => cmp y x).ServesGreatest := by
  have : Std.TransCmp fun x y => cmp y x := Std.TransCmp.opposite
  exact ⟨(ordered_run changes).servesGreatest (indexed_run changes),
    (ordered_run changes).servesGreatest (indexed_run changes)⟩

end Lawful

/-- Standings that rise and fall, two of them equal for a while. -/
def movingStandings : List (Change Nat Standing) :=
  [.add 1 ⟨false, 0, 0, 3⟩, .add 2 ⟨true, 2, 0, 2⟩, .add 3 ⟨true, 0, 1, 1⟩, .add 4 ⟨true, 0, 1, 1⟩,
    .update 1 ⟨true, 0, 0, 3⟩, .pop, .add 5 ⟨false, 1, 1, 2⟩, .update 3 ⟨true, 1, 0, 1⟩]

/-- The moving standings, with the order in which their keys leave the heap. -/
theorem run_movingStandings_serves_greatest :
    LawfulBEq Nat ∧ Std.TransCmp Standing.compare ∧
      (run movingStandings : KeyedHeap Nat Standing Standing.compare).ServesGreatest ∧
      (run movingStandings :
        KeyedHeap Nat Standing fun x y => Standing.compare y x).ServesGreatest ∧
      (run movingStandings : KeyedHeap Nat Standing Standing.compare).drain.map Prod.fst =
        [4, 3, 2, 5] := by
  refine ⟨inferInstance, inferInstance, (run_serves_greatest movingStandings).1,
    (run_serves_greatest movingStandings).2, ?_⟩
  cbv

end KeyedHeap

end BatchOrder
