import Mathlib.Data.List.Permutation
import Std.Data.ExtHashMap
import BatchOrder.Proofs.KeyedHeap.Index

/-!
# What a run of operations makes of a keyed heap

A heap that is built up from the empty one by any operations in any order holds a finite map, and
every operation does to this map what its name says.  Nothing here rests on the comparison: it may
be inconsistent, and then only the choice of the top means nothing.

Main results:

- Theorem `run_induction`: what holds of the empty heap and is kept by every change holds after a
  run.
- Theorem `Indexed.getElem?_contents`: the entries of an indexed heap make up the map of its values.
- Theorem `run_acts_as_map`: after any run, positions and entries are inverse to each other, and
  queries and changes are those of the map.
-/

namespace BatchOrder

namespace KeyedHeap

universe u v

variable {κ : Type u} {ν : Type v} [BEq κ] [Hashable κ] {cmp : ν → ν → Ordering}

/-! ## Runs -/

/-- What can be asked of a heap that may change it. -/
inductive Change (κ : Type u) (ν : Type v) where
  /-- Add an entry with this key and value. -/
  | add (k : κ) (x : ν)
  /-- Replace the value of this key. -/
  | update (k : κ) (x : ν)
  /-- Take the top out. -/
  | pop

/-- The heap after a change.  A heap without entries stays what it is when its top is to be taken
out. -/
def change (h : KeyedHeap κ ν cmp) : Change κ ν → KeyedHeap κ ν cmp
  | .add k x => (h.add k x).2
  | .update k x => (h.update k x).2
  | .pop =>
    match h.pop? with
    | some (_, rest) => rest
    | none => h

/-- Taking the top out leaves what is left, or nothing happens. -/
theorem change_pop (h : KeyedHeap κ ν cmp) :
    h.change .pop = h ∨ ∃ e, h.pop? = some (e, h.change .pop) := by
  cases hpop : h.pop? with
  | none => exact .inl (by simp [change, hpop])
  | some popped => exact .inr ⟨popped.1, by simp [change, hpop]⟩

/-- What changes in a row make of the empty heap. -/
def run (changes : List (Change κ ν)) : KeyedHeap κ ν cmp := changes.foldl change ∅

/-- What holds of the empty heap and is kept by every change holds after every run. -/
theorem run_induction {p : KeyedHeap κ ν cmp → Prop} (hempty : p ∅)
    (hchange : ∀ h c, p h → p (h.change c)) (changes : List (Change κ ν)) : p (run changes) := by
  have hfold (h : KeyedHeap κ ν cmp) (hp : p h) : p (changes.foldl change h) := by
    induction changes generalizing h with
    | nil => exact hp
    | cons c changes ih => exact ih _ (hchange h c hp)
  exact hfold ∅ hempty

section Lawful

variable [LawfulBEq κ]

/-- Every change keeps positions and entries inverse. -/
theorem Indexed.change {h : KeyedHeap κ ν cmp} (hh : h.Indexed) (c : Change κ ν) :
    (h.change c).Indexed := by
  cases c with
  | add k x => exact (hh.add k x).1
  | update k x => exact (hh.update k x).1
  | pop =>
      rcases change_pop h with hsame | ⟨e, hpop⟩
      · rw [hsame]
        exact hh
      · exact (hh.pop? hpop).1

/-- Positions and entries are inverse after every run. -/
theorem indexed_run (changes : List (Change κ ν)) :
    (run changes : KeyedHeap κ ν cmp).Indexed :=
  run_induction indexed_empty (fun _ c hh => hh.change c) changes

/-! ## Entries as a map -/

/-- The map that the entries make up. -/
def contents (h : KeyedHeap κ ν cmp) : Std.ExtHashMap κ ν := .ofList h.entries.toList

omit [LawfulBEq κ] in
/-- The entries are the keys with their values. -/
theorem Indexed.mem_entries_iff {h : KeyedHeap κ ν cmp} (hh : h.Indexed) {e : κ × ν} :
    e ∈ h.entries.toList ↔ h.value? e.1 = some e.2 := by
  rw [hh.value?_eq_some_iff, List.mem_iff_getElem?]
  simp only [Array.getElem?_toList]

omit [LawfulBEq κ] in
/-- No key has two entries. -/
theorem Indexed.nodup_keys {h : KeyedHeap κ ν cmp} (hh : h.Indexed) :
    (h.entries.toList.map Prod.fst).Nodup := by
  rw [List.Nodup, List.pairwise_map, List.pairwise_iff_getElem]
  intro i j hi hj hij hkey
  have hx : h.entries[i]? = some (h.entries.toList[i].1, h.entries.toList[i].2) := by
    rw [← Array.getElem?_toList, List.getElem?_eq_getElem hi]
  have hy : h.entries[j]? = some (h.entries.toList[i].1, h.entries.toList[j].2) := by
    rw [← Array.getElem?_toList, List.getElem?_eq_getElem hj, hkey]
  exact Nat.ne_of_lt hij (hh.position_unique hx hy)

/-- No two entries have the same key. -/
theorem Indexed.pairwise_keys {h : KeyedHeap κ ν cmp} (hh : h.Indexed) :
    h.entries.toList.Pairwise fun e e' => (e.1 == e'.1) = false :=
  (List.pairwise_map.1 hh.nodup_keys).imp fun hne => beq_eq_false_iff_ne.2 hne

/-- The entries make up the map of the values. -/
theorem Indexed.getElem?_contents {h : KeyedHeap κ ν cmp} (hh : h.Indexed) (k : κ) :
    h.contents[k]? = h.value? k := by
  unfold contents
  cases hk : h.value? k with
  | some x =>
      exact Std.ExtHashMap.getElem?_ofList_of_mem (beq_self_eq_true k) hh.pairwise_keys
        (hh.mem_entries_iff.2 hk)
  | none =>
      apply Std.ExtHashMap.getElem?_ofList_of_contains_eq_false
      rw [Bool.eq_false_iff, ne_eq, List.contains_iff_mem, List.mem_map]
      rintro ⟨e, he, rfl⟩
      rw [hh.mem_entries_iff.1 he] at hk
      cases hk

/-- A key is in the map exactly if the heap contains it. -/
theorem Indexed.mem_contents_iff {h : KeyedHeap κ ν cmp} (hh : h.Indexed) {k : κ} :
    k ∈ h.contents ↔ h.contains k = true := by
  rw [hh.contains_eq_isSome, ← hh.getElem?_contents, ← Std.ExtHashMap.contains_eq_isSome_getElem?]
  exact Std.ExtHashMap.mem_iff_contains

/-- The map is as large as the heap. -/
theorem Indexed.size_contents {h : KeyedHeap κ ν cmp} (hh : h.Indexed) :
    h.contents.size = h.size :=
  (Std.ExtHashMap.size_ofList hh.pairwise_keys).trans h.entries.length_toList

/-- A heap with the values of a map has this map as its contents. -/
theorem Indexed.contents_eq {h : KeyedHeap κ ν cmp} (hh : h.Indexed) {m : Std.ExtHashMap κ ν}
    (hm : ∀ k, h.value? k = m[k]?) : h.contents = m := by
  apply Std.ExtHashMap.ext_getElem?
  intro k
  rw [hh.getElem?_contents, hm]

/-! ## Changes as changes of the map -/

omit [LawfulBEq κ] in
/-- Adding changes nothing if the key is there, and says so. -/
theorem add_of_contains {h : KeyedHeap κ ν cmp} {k : κ} (hk : h.contains k = true) (x : ν) :
    h.add k x = (false, h) :=
  if_pos hk

/-- Adding a key that is not there inserts it into the map, and says so. -/
theorem Indexed.contents_add {h : KeyedHeap κ ν cmp} (hh : h.Indexed) {k : κ}
    (hk : k ∉ h.contents) (x : ν) :
    (h.add k x).1 = true ∧ (h.add k x).2.contents = h.contents.insert k x := by
  have hout : ¬ h.contains k = true := fun hin => hk (hh.mem_contents_iff.2 hin)
  constructor
  · unfold KeyedHeap.add
    rw [if_neg hout]
  · have hnone : (h.value? k).isNone = true := by
      rw [hh.contains_eq_isSome] at hout
      simpa using hout
    refine (hh.add k x).1.contents_eq fun k' => ?_
    rw [(hh.add k x).2, hnone, Bool.and_true, Std.ExtHashMap.getElem?_insert, hh.getElem?_contents]

/-- Updating changes nothing if the key is not there, and says so. -/
theorem update_of_not_contains {h : KeyedHeap κ ν cmp} {k : κ} (hk : h.contains k = false) (x : ν) :
    h.update k x = (false, h) := by
  have hnone : h.positions[k]? = none := Std.HashMap.getElem?_eq_none_of_contains_eq_false hk
  unfold KeyedHeap.update
  rw [hnone]

/-- Updating a key that is there replaces its value in the map, and says so. -/
theorem Indexed.contents_update {h : KeyedHeap κ ν cmp} (hh : h.Indexed) {k : κ}
    (hk : k ∈ h.contents) (x : ν) :
    (h.update k x).1 = true ∧ (h.update k x).2.contents = h.contents.insert k x := by
  have hin := hh.mem_contents_iff.1 hk
  constructor
  · unfold contains at hin
    rw [Std.HashMap.contains_eq_isSome_getElem?] at hin
    rcases Option.isSome_iff_exists.1 hin with ⟨i, hi⟩
    unfold KeyedHeap.update
    rw [hi]
  · rw [hh.contains_eq_isSome] at hin
    refine (hh.update k x).1.contents_eq fun k' => ?_
    rw [(hh.update k x).2, hin, Bool.and_true, Std.ExtHashMap.getElem?_insert, hh.getElem?_contents]

omit [LawfulBEq κ] in
theorem top?_of_pop? {h h' : KeyedHeap κ ν cmp} {e : κ × ν} (hpop : h.pop? = some (e, h')) :
    h.top? = some e := by
  unfold KeyedHeap.pop? at hpop
  split at hpop
  · cases hpop
  · next htop =>
    rw [htop, (Prod.mk.inj (Option.some.inj hpop)).1]

omit [LawfulBEq κ] in
theorem top?_eq_none_of_pop? {h : KeyedHeap κ ν cmp} (hpop : h.pop? = none) : h.top? = none := by
  unfold KeyedHeap.pop? at hpop
  split at hpop
  · assumption
  · cases hpop

/-- What is taken out is in the map before, and only its key is erased. -/
theorem Indexed.contents_pop? {h h' : KeyedHeap κ ν cmp} (hh : h.Indexed) {e : κ × ν}
    (hpop : h.pop? = some (e, h')) :
    h.contents[e.1]? = some e.2 ∧ h'.contents = h.contents.erase e.1 := by
  rcases hh.pop? hpop with ⟨hh', hvalue, hrest⟩
  refine ⟨(hh.getElem?_contents e.1).trans hvalue, hh'.contents_eq fun k => ?_⟩
  rw [hrest, Std.ExtHashMap.getElem?_erase, hh.getElem?_contents]

/-- Nothing is taken out exactly if the map is empty. -/
theorem Indexed.pop?_eq_none_iff_contents {h : KeyedHeap κ ν cmp} (hh : h.Indexed) :
    h.pop? = none ↔ h.contents = ∅ := by
  rw [hh.pop?_eq_none_iff]
  constructor
  · intro hnone
    exact hh.contents_eq fun k => by rw [hnone k, Std.ExtHashMap.getElem?_empty]
  · intro hempty k
    rw [← hh.getElem?_contents, hempty, Std.ExtHashMap.getElem?_empty]

/-- A heap is a finite map, `contents`.  Positions and entries are inverse to each other, with one
entry for every key and no position beyond the last entry; queries answer what the map answers; and
changes are made to the map, or else to nothing: an entry is added if its key has none, a value is
replaced if its key has one, and what is taken out is the entry on top. -/
structure ActsAsMap (h : KeyedHeap κ ν cmp) : Prop where
  inverse : ∀ (k : κ) (i : Nat), h.positions[k]? = some i ↔ ∃ x, h.entries[i]? = some (k, x)
  distinct : (h.entries.toList.map Prod.fst).Nodup
  inRange : ∀ (k : κ) (i : Nat), h.positions[k]? = some i → i < h.entries.size
  contains_eq : ∀ k, h.contains k = h.contents.contains k
  value?_eq : ∀ k, h.value? k = h.contents[k]?
  size_eq : h.size = h.contents.size
  isEmpty_eq : h.isEmpty = h.contents.isEmpty
  add_known : ∀ k x, k ∈ h.contents → h.add k x = (false, h)
  add_new : ∀ k x, k ∉ h.contents →
    (h.add k x).1 = true ∧ (h.add k x).2.contents = h.contents.insert k x
  update_known : ∀ k x, k ∈ h.contents →
    (h.update k x).1 = true ∧ (h.update k x).2.contents = h.contents.insert k x
  update_unknown : ∀ k x, k ∉ h.contents → h.update k x = (false, h)
  pop_empty : h.contents = ∅ → h.top? = none ∧ h.pop? = none
  pop_top : h.contents ≠ ∅ → ∃ top rest, h.top? = some top ∧ h.pop? = some (top, rest) ∧
    h.contents[top.1]? = some top.2 ∧ rest.contents = h.contents.erase top.1

/-- A heap whose positions and entries are inverse acts as a finite map. -/
theorem Indexed.actsAsMap {h : KeyedHeap κ ν cmp} (hh : h.Indexed) : h.ActsAsMap where
  inverse := hh
  distinct := hh.nodup_keys
  inRange k i hi := by
    rcases (hh k i).1 hi with ⟨x, hx⟩
    exact (Array.getElem?_eq_some_iff.1 hx).1
  contains_eq k := by
    rw [hh.contains_eq_isSome, Std.ExtHashMap.contains_eq_isSome_getElem?, hh.getElem?_contents]
  value?_eq k := (hh.getElem?_contents k).symm
  size_eq := hh.size_contents.symm
  isEmpty_eq := by
    rw [Bool.eq_iff_iff, Std.ExtHashMap.isEmpty_iff, Std.ExtHashMap.eq_empty_iff_size_eq_zero,
      hh.size_contents]
    exact Array.isEmpty_iff_size_eq_zero
  add_known k x hk := add_of_contains (hh.mem_contents_iff.1 hk) x
  add_new k x hk := hh.contents_add hk x
  update_known k x hk := hh.contents_update hk x
  update_unknown k x hk := by
    apply update_of_not_contains
    exact Bool.eq_false_iff.2 fun hin => hk (hh.mem_contents_iff.2 hin)
  pop_empty hempty := by
    have hpop := hh.pop?_eq_none_iff_contents.2 hempty
    exact ⟨top?_eq_none_of_pop? hpop, hpop⟩
  pop_top hne := by
    cases hpop : h.pop? with
    | none => exact absurd (hh.pop?_eq_none_iff_contents.1 hpop) hne
    | some popped => exact ⟨popped.1, popped.2, top?_of_pop? hpop, rfl, hh.contents_pop? hpop⟩

/-- Whatever the comparison answers, the empty heap is the empty map, and a heap acts as a map after
every run. -/
theorem run_acts_as_map :
    (∅ : KeyedHeap κ ν cmp).contents = ∅ ∧
      ∀ changes : List (Change κ ν), (run changes : KeyedHeap κ ν cmp).ActsAsMap :=
  ⟨rfl, fun changes => (indexed_run changes).actsAsMap⟩

end Lawful

/-- A comparison that is no order: all values are greater than all, themselves included. -/
def contrary (_ _ : Nat) : Ordering := .gt

/-- Under it an added entry rises to the top, and an updated one rises there and sinks again. -/
theorem run_contrary_acts_as_map :
    LawfulBEq Nat ∧
      (∅ : KeyedHeap Nat Nat contrary).contents = ∅ ∧
      (run [.add 1 10, .add 2 20, .add 1 40, .add 3 30, .pop, .update 2 5, .update 4 50] :
        KeyedHeap Nat Nat contrary).ActsAsMap ∧
      (run [.add 1 10, .add 2 20, .add 1 40, .add 3 30, .pop, .update 2 5, .update 4 50] :
        KeyedHeap Nat Nat contrary).top? = some (1, 10) := by
  refine ⟨inferInstance, run_acts_as_map.1, run_acts_as_map.2 _, ?_⟩
  cbv

end KeyedHeap

end BatchOrder
