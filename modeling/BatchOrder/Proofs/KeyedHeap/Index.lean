import Mathlib.Logic.Equiv.Basic
import BatchOrder.KeyedHeap

/-!
# Keyed heaps as finite maps

Entries and positions of a heap are two views of one thing: a key has a position exactly if the
entry there carries it.  Every operation keeps the two views together, whatever the comparison, and
does to the value of a key what it would do in a finite map.

Main results:

- Theorems `Indexed.siftUp` and `Indexed.siftDown`: moving entries changes no value.
- Theorems `Indexed.add`, `Indexed.update` and `Indexed.pop?`: the operations act on values as those
  of a finite map.
-/

namespace BatchOrder

namespace KeyedHeap

universe u v

variable {κ : Type u} {ν : Type v} [BEq κ] [Hashable κ] {cmp : ν → ν → Ordering}

/-- The positions of a heap are exactly the positions of its entries. -/
def Indexed (h : KeyedHeap κ ν cmp) : Prop :=
  ∀ (k : κ) (i : Nat), h.positions[k]? = some i ↔ ∃ x, h.entries[i]? = some (k, x)

/-- The second heap is indexed and holds the values of the first. -/
structure Rearranged (h h' : KeyedHeap κ ν cmp) : Prop where
  indexed : h'.Indexed
  value?_eq : ∀ k, h'.value? k = h.value? k

/-- A heap that is left as it is holds its own values. -/
theorem Indexed.rearranged {h : KeyedHeap κ ν cmp} (hh : h.Indexed) : Rearranged h h :=
  ⟨hh, fun _ => rfl⟩

/-- Values that are kept twice are kept. -/
theorem Rearranged.trans {h₁ h₂ h₃ : KeyedHeap κ ν cmp} (h₁₂ : Rearranged h₁ h₂)
    (h₂₃ : Rearranged h₂ h₃) : Rearranged h₁ h₃ :=
  ⟨h₂₃.indexed, fun k => (h₂₃.value?_eq k).trans (h₁₂.value?_eq k)⟩

/-! ## Values and entries -/

/-- The value of a key is the one that an entry carries under it. -/
theorem Indexed.value?_eq_some_iff {h : KeyedHeap κ ν cmp} (hh : h.Indexed) {k : κ} {x : ν} :
    h.value? k = some x ↔ ∃ i : Nat, h.entries[i]? = some (k, x) := by
  constructor
  · intro hv
    unfold value? at hv
    rcases Option.bind_eq_some_iff.1 hv with ⟨i, hi, hv⟩
    rcases (hh k i).1 hi with ⟨y, hy⟩
    rw [hy] at hv
    cases hv
    exact ⟨i, hy⟩
  · rintro ⟨i, hi⟩
    have hpos : h.positions[k]? = some i := (hh k i).2 ⟨x, hi⟩
    simp [value?, hpos, hi]

/-- A heap whose entries carry the values of a map has these values. -/
theorem Indexed.value?_eq {h : KeyedHeap κ ν cmp} (hh : h.Indexed) {k : κ} {o : Option ν}
    (ho : ∀ x, (∃ i : Nat, h.entries[i]? = some (k, x)) ↔ o = some x) : h.value? k = o := by
  apply Option.ext
  intro x
  rw [hh.value?_eq_some_iff, ho]

/-- There is nothing to take out exactly if no key has a value. -/
theorem Indexed.pop?_eq_none_iff {h : KeyedHeap κ ν cmp} (hh : h.Indexed) :
    h.pop? = none ↔ ∀ k, h.value? k = none := by
  unfold KeyedHeap.pop? top?
  constructor
  · intro hpop k
    split at hpop
    · next hnone =>
      rw [Option.eq_none_iff_forall_ne_some]
      intro x hx
      rcases hh.value?_eq_some_iff.1 hx with ⟨i, hi⟩
      have hlt := (Array.getElem?_eq_some_iff.1 hi).1
      have hempty := Array.getElem?_eq_none_iff.1 hnone
      omega
    · cases hpop
  · intro hnone
    split
    · rfl
    · next e he =>
      have hvalue : h.value? e.1 = some e.2 := hh.value?_eq_some_iff.2 ⟨0, he⟩
      rw [hnone e.1] at hvalue
      cases hvalue

/-- A key has one position only. -/
theorem Indexed.position_unique {h : KeyedHeap κ ν cmp} (hh : h.Indexed) {k : κ} {i j : Nat}
    {x y : ν} (hi : h.entries[i]? = some (k, x)) (hj : h.entries[j]? = some (k, y)) : i = j := by
  have hi' := (hh k i).2 ⟨x, hi⟩
  rw [(hh k j).2 ⟨y, hj⟩] at hi'
  exact (Option.some.inj hi').symm

/-- Exchanging two entries leaves the others where they are. -/
theorem getElem?_swap {h : KeyedHeap κ ν cmp} {i j : Nat} (hi : i < h.size) (hj : j < h.size)
    (m : Nat) : (h.swap i j).entries[m]? = h.entries[Equiv.swap i j m]? := by
  have hi' : i < h.entries.size := hi
  have hj' : j < h.entries.size := hj
  have hswap : (h.swap i j).entries = h.entries.swap i j hi' hj' := by
    simp [swap, Array.swapIfInBounds_def, hi', hj']
  rw [hswap, Array.getElem?_swap, Equiv.swap_apply_def]
  by_cases hmj : j = m
  · subst hmj
    by_cases hji : j = i
    · simp [hji]
    · simp [hji, hi']
  · by_cases hmi : i = m
    · subst hmi
      simp [hmj, hj']
    · simp [hmi, hmj, Ne.symm hmi, Ne.symm hmj]

section Lawful

variable [LawfulBEq κ]

/-- A heap contains the keys that have a value. -/
theorem Indexed.contains_eq_isSome {h : KeyedHeap κ ν cmp} (hh : h.Indexed) (k : κ) :
    h.contains k = (h.value? k).isSome := by
  unfold contains
  rw [Std.HashMap.contains_eq_isSome_getElem?]
  cases hpos : h.positions[k]? with
  | none => simp [value?, hpos]
  | some i =>
      rcases (hh k i).1 hpos with ⟨x, hx⟩
      simp [value?, hpos, hx]

/-! ## Moving entries -/

/-- Exchanging two entries exchanges their positions. -/
theorem Indexed.position_swap_iff {h : KeyedHeap κ ν cmp} (hh : h.Indexed) {i j : Nat}
    (hi : i < h.entries.size) (hj : j < h.entries.size) (k : κ) (m : Nat) :
    (h.swap i j).positions[k]? = some m ↔ h.positions[k]? = some (Equiv.swap i j m) := by
  have hx : h.entries[i]? = some h.entries[i] := Array.getElem?_eq_getElem hi
  have hy : h.entries[j]? = some h.entries[j] := Array.getElem?_eq_getElem hj
  have hpos : (h.swap i j).positions =
      (h.positions.insert h.entries[i].1 j).insert h.entries[j].1 i := by
    simp [KeyedHeap.swap, hi, hj]
  rw [hpos, Std.HashMap.getElem?_insert, Std.HashMap.getElem?_insert]
  by_cases hky : h.entries[j].1 = k
  · have hk : h.positions[k]? = some j := (hh k j).2 ⟨h.entries[j].2, by rw [hy, ← hky]⟩
    simp only [hky, beq_self_eq_true, if_true, hk, Option.some.injEq]
    rw [eq_comm (a := j), Equiv.swap_apply_eq_iff, Equiv.swap_apply_right, eq_comm]
  · by_cases hkx : h.entries[i].1 = k
    · have hk : h.positions[k]? = some i := (hh k i).2 ⟨h.entries[i].2, by rw [hx, ← hkx]⟩
      simp only [hkx, beq_self_eq_true, if_true, beq_iff_eq, hky, if_false, hk,
        Option.some.injEq]
      rw [eq_comm (a := i), Equiv.swap_apply_eq_iff, Equiv.swap_apply_left, eq_comm]
    · have hki : h.positions[k]? ≠ some i := by
        intro hk
        rcases (hh k i).1 hk with ⟨x, hxk⟩
        rw [hx] at hxk
        exact hkx (congrArg Prod.fst (Option.some.inj hxk))
      have hkj : h.positions[k]? ≠ some j := by
        intro hk
        rcases (hh k j).1 hk with ⟨y, hyk⟩
        rw [hy] at hyk
        exact hky (congrArg Prod.fst (Option.some.inj hyk))
      simp only [beq_iff_eq, hky, hkx, if_false]
      rw [Equiv.swap_apply_def]
      split
      · next hm => simp [hm, hki, hkj]
      · split
        · next hm => simp [hm, hki, hkj]
        · rfl

/-- Exchanging two entries keeps every value. -/
theorem Indexed.swap {h : KeyedHeap κ ν cmp} (hh : h.Indexed) (i j : Nat) :
    Rearranged h (h.swap i j) := by
  by_cases hij : i < h.entries.size ∧ j < h.entries.size
  · rcases hij with ⟨hi, hj⟩
    have hindexed : (h.swap i j).Indexed := by
      intro k m
      rw [hh.position_swap_iff hi hj, getElem?_swap hi hj]
      exact hh k _
    refine ⟨hindexed, fun k => hindexed.value?_eq fun x => ?_⟩
    rw [hh.value?_eq_some_iff]
    simp only [getElem?_swap hi hj]
    exact (Equiv.swap i j).exists_congr_left.trans (by simp)
  · have hsame : h.swap i j = h := by
      unfold KeyedHeap.swap
      split
      · next x y hx hy =>
        exact absurd ⟨(Array.getElem?_eq_some_iff.1 hx).1, (Array.getElem?_eq_some_iff.1 hy).1⟩ hij
      · rfl
    rw [hsame]
    exact hh.rearranged

/-- Raising an entry changes no value. -/
theorem Indexed.siftUp {h : KeyedHeap κ ν cmp} (hh : h.Indexed) (i : Nat) :
    Rearranged h (h.siftUp i).1 := by
  fun_induction KeyedHeap.siftUp h i with
  | case1 h i _ ih =>
      have hswap := hh.swap i ((i - 1) / 2)
      exact hswap.trans (ih hswap.indexed)
  | case2 h i _ => exact hh.rearranged

/-- Lowering an entry changes no value. -/
theorem Indexed.siftDown {h : KeyedHeap κ ν cmp} (hh : h.Indexed) (i : Nat) :
    Rearranged h (h.siftDown i) := by
  fun_induction KeyedHeap.siftDown h i with
  | case1 h i _ => exact hh.rearranged
  | case2 h i _ ih =>
      have hswap := hh.swap i (h.favourite i)
      exact hswap.trans (ih hswap.indexed)

/-! ## Changing the entries -/

theorem indexed_empty : (∅ : KeyedHeap κ ν cmp).Indexed := by
  intro k i
  have hpos : (∅ : KeyedHeap κ ν cmp).positions = ∅ := rfl
  have hent : (∅ : KeyedHeap κ ν cmp).entries = #[] := rfl
  simp [hpos, hent]

@[simp]
theorem value?_empty (k : κ) : (∅ : KeyedHeap κ ν cmp).value? k = none := by
  have hpos : (∅ : KeyedHeap κ ν cmp).positions = ∅ := rfl
  simp [value?, hpos]

/-- A new key may be entered behind the last entry. -/
theorem Indexed.push {h : KeyedHeap κ ν cmp} (hh : h.Indexed) {k : κ} (hk : h.value? k = none)
    (x : ν) :
    (⟨h.entries.push (k, x), h.positions.insert k h.entries.size⟩ :
      KeyedHeap κ ν cmp).Indexed := by
  have habsent : ∀ (i : Nat) (y : ν), h.entries[i]? ≠ some (k, y) := by
    intro i y hi
    rw [hh.value?_eq_some_iff.2 ⟨i, hi⟩] at hk
    cases hk
  intro k' i
  rw [Std.HashMap.getElem?_insert, Array.getElem?_push]
  by_cases hkk : k = k'
  · subst hkk
    by_cases hi : i = h.entries.size
    · simp [hi]
    · simp [hi, Ne.symm hi, habsent]
  · by_cases hi : i = h.entries.size
    · simp [hi, hkk, hh k']
    · simp [hi, hkk, hh k']

/-- An entry put at the end gives its key the value. -/
theorem Indexed.value?_push {h : KeyedHeap κ ν cmp} (hh : h.Indexed) (k : κ) (x : ν) (k' : κ) :
    (⟨h.entries.push (k, x), h.positions.insert k h.entries.size⟩ : KeyedHeap κ ν cmp).value? k' =
      if k == k' then some x else h.value? k' := by
  unfold value?
  rw [Std.HashMap.getElem?_insert]
  by_cases hkk : k = k'
  · simp [hkk]
  · simp only [beq_iff_eq, hkk, if_false]
    cases hj : h.positions[k']? with
    | none => rfl
    | some j =>
        rcases (hh k' j).1 hj with ⟨y, hy⟩
        have hne : j ≠ h.entries.size := Nat.ne_of_lt (Array.getElem?_eq_some_iff.1 hy).1
        simp [Array.getElem?_push, hne]

/-- Adding a new key enters its value and keeps the others; adding a known key changes nothing. -/
theorem Indexed.add {h : KeyedHeap κ ν cmp} (hh : h.Indexed) (k : κ) (x : ν) :
    (h.add k x).2.Indexed ∧ ∀ k', (h.add k x).2.value? k' =
      if k == k' && (h.value? k).isNone then some x else h.value? k' := by
  unfold KeyedHeap.add
  rw [hh.contains_eq_isSome]
  cases hk : h.value? k with
  | some y => exact ⟨hh, fun k' => by simp⟩
  | none =>
      have hsift := (hh.push hk x).siftUp h.entries.size
      refine ⟨hsift.indexed, fun k' => (hsift.value?_eq k').trans ?_⟩
      rw [hh.value?_push, Option.isNone_none, Bool.and_true]

omit [LawfulBEq κ] in
/-- The value of a key may be replaced where its entry stands. -/
theorem Indexed.modify {h : KeyedHeap κ ν cmp} (hh : h.Indexed) (i : Nat) (x : ν) :
    (⟨h.entries.modify i fun e => (e.1, x), h.positions⟩ : KeyedHeap κ ν cmp).Indexed := by
  intro k j
  rw [hh, Array.getElem?_modify]
  split
  · next hij =>
    subst hij
    cases h.entries[i]? with
    | none => simp
    | some e => simp [Prod.ext_iff]
  · rfl

/-- An entry replaced at the position of its key gives the key the new value. -/
theorem Indexed.value?_modify {h : KeyedHeap κ ν cmp} (hh : h.Indexed) {k : κ} {i : Nat}
    (hi : h.positions[k]? = some i) (x : ν) (k' : κ) :
    (⟨h.entries.modify i fun e => (e.1, x), h.positions⟩ : KeyedHeap κ ν cmp).value? k' =
      if k == k' then some x else h.value? k' := by
  rcases (hh k i).1 hi with ⟨y, hy⟩
  unfold value?
  by_cases hkk : k = k'
  · subst hkk
    simp [hi, hy, Array.getElem?_modify]
  · simp only [beq_iff_eq, hkk, if_false]
    cases hj : h.positions[k']? with
    | none => rfl
    | some j =>
        have hij : i ≠ j := by
          rintro rfl
          rcases (hh k' i).1 hj with ⟨z, hz⟩
          rw [hy] at hz
          exact hkk (congrArg Prod.fst (Option.some.inj hz))
        simp [Array.getElem?_modify, hij]

/-- Updating replaces the value of a key that has one. -/
theorem Indexed.update {h : KeyedHeap κ ν cmp} (hh : h.Indexed) (k : κ) (x : ν) :
    (h.update k x).2.Indexed ∧ ∀ k', (h.update k x).2.value? k' =
      if k == k' && (h.value? k).isSome then some x else h.value? k' := by
  unfold KeyedHeap.update
  cases hi : h.positions[k]? with
  | none => exact ⟨hh, fun k' => by simp [value?, hi]⟩
  | some i =>
      have hraised := (hh.modify i x).siftUp i
      have hlowered := hraised.trans (hraised.indexed.siftDown
        ((⟨h.entries.modify i fun e => (e.1, x), h.positions⟩ : KeyedHeap κ ν cmp).siftUp i).2)
      have hpresent : (h.value? k).isSome := by
        rcases (hh k i).1 hi with ⟨y, hy⟩
        rw [hh.value?_eq_some_iff.2 ⟨i, hy⟩]
        rfl
      refine ⟨hlowered.indexed, fun k' => (hlowered.value?_eq k').trans ?_⟩
      rw [hh.value?_modify hi, hpresent, Bool.and_true]

/-- The last entry may be taken out. -/
theorem Indexed.pop {h : KeyedHeap κ ν cmp} (hh : h.Indexed) {k : κ} {x : ν}
    (hlast : h.entries[h.entries.size - 1]? = some (k, x)) :
    (⟨h.entries.pop, h.positions.erase k⟩ : KeyedHeap κ ν cmp).Indexed := by
  intro k' i
  rw [Std.HashMap.getElem?_erase, Array.getElem?_pop]
  by_cases hk : k = k'
  · subst hk
    simp only [beq_self_eq_true, if_true, reduceCtorEq, false_iff, not_exists]
    intro y hy
    split at hy
    · next hi => exact absurd (hh.position_unique hlast hy) (Nat.ne_of_gt hi)
    · cases hy
  · simp only [beq_iff_eq, hk, if_false, hh k' i]
    refine exists_congr fun y => ?_
    split
    · rfl
    · next hi =>
      simp only [reduceCtorEq, iff_false]
      intro hy
      have hlt := (Array.getElem?_eq_some_iff.1 hy).1
      have hilast : i = h.entries.size - 1 := by omega
      rw [hilast, hlast] at hy
      exact hk (congrArg Prod.fst (Option.some.inj hy))

/-- The last entry taken away takes the value of its key with it. -/
theorem Indexed.value?_pop {h : KeyedHeap κ ν cmp} (hh : h.Indexed) {k : κ} {x : ν}
    (hlast : h.entries[h.entries.size - 1]? = some (k, x)) (k' : κ) :
    (⟨h.entries.pop, h.positions.erase k⟩ : KeyedHeap κ ν cmp).value? k' =
      if k == k' then none else h.value? k' := by
  unfold value?
  rw [Std.HashMap.getElem?_erase]
  by_cases hk : k = k'
  · simp [hk]
  · simp only [beq_iff_eq, hk, if_false]
    cases hj : h.positions[k']? with
    | none => rfl
    | some j =>
        rcases (hh k' j).1 hj with ⟨y, hy⟩
        have hlt := (Array.getElem?_eq_some_iff.1 hy).1
        have hne : j ≠ h.entries.size - 1 := by
          rintro rfl
          rw [hlast] at hy
          exact hk (congrArg Prod.fst (Option.some.inj hy))
        have hlt' : j < h.entries.size - 1 := by omega
        simp [Array.getElem?_pop, hlt']

/-- Taking the top out removes its key and keeps the other values. -/
theorem Indexed.pop? {h h' : KeyedHeap κ ν cmp} (hh : h.Indexed) {e : κ × ν}
    (hpop : h.pop? = some (e, h')) :
    h'.Indexed ∧ h.value? e.1 = some e.2 ∧
      ∀ k, h'.value? k = if e.1 == k then none else h.value? k := by
  unfold KeyedHeap.pop? at hpop
  split at hpop
  · cases hpop
  · next top htop =>
    rcases Prod.mk.inj (Option.some.inj hpop) with ⟨rfl, rfl⟩
    have hpos : 0 < h.size := (Array.getElem?_eq_some_iff.1 htop).1
    have hlast : (h.swap 0 (h.size - 1)).entries[(h.swap 0 (h.size - 1)).entries.size - 1]? =
        some (top.1, top.2) := by
      have hsize : (h.swap 0 (h.size - 1)).entries.size = h.size := size_swap ..
      rw [hsize, getElem?_swap hpos (by omega), Equiv.swap_apply_right]
      exact htop
    have hswap := hh.swap 0 (h.size - 1)
    have hsift := (hswap.indexed.pop hlast).siftDown 0
    refine ⟨hsift.indexed, hh.value?_eq_some_iff.2 ⟨0, htop⟩, fun k => ?_⟩
    rw [hsift.value?_eq, hswap.indexed.value?_pop hlast, hswap.value?_eq]

end Lawful

end KeyedHeap

end BatchOrder
