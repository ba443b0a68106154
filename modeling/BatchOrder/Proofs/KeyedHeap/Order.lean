import BatchOrder.Proofs.KeyedHeap.Index

/-!
# The order of keyed heaps

If the comparison is a total preorder, no entry of a heap beats the one on top.  The invariant is
local: no entry beats its parent.  An operation breaks it at one position at most, and moving the
entry there up and then down restores it.

Main results:

- Theorem `Ordered.not_beats_top`: nothing beats the top of an ordered heap.
- Theorems `Ordered.add`, `Ordered.update` and `Ordered.pop?`: the operations keep heaps ordered.
-/

namespace BatchOrder

namespace KeyedHeap

universe u v

variable {κ : Type u} {ν : Type v} [BEq κ] [Hashable κ] {cmp : ν → ν → Ordering}

/-- The position above another.  The top counts as above itself. -/
abbrev parent (i : Nat) : Nat := (i - 1) / 2

/-- No entry beats its parent. -/
def Ordered (h : KeyedHeap κ ν cmp) : Prop :=
  ∀ i, 0 < i → ¬ h.beats i (parent i)

/-- No entry beats its parent, except perhaps the one at position `i` and its children; and these
children do not beat their grandparent. -/
structure NearlyOrdered (h : KeyedHeap κ ν cmp) (i : Nat) : Prop where
  off : ∀ c, 0 < c → c ≠ i → parent c ≠ i → ¬ h.beats c (parent c)
  across : ∀ c, 0 < c → parent c = i → 0 < i → ¬ h.beats c (parent i)

/-- No child of position `i` beats the entry there. -/
def SettledBelow (h : KeyedHeap κ ν cmp) (i : Nat) : Prop :=
  ∀ c, 0 < c → parent c = i → ¬ h.beats c i

/-! ## Comparing entries -/

/-- One position beats another if both have entries and the first compares greater. -/
theorem beats_iff {h : KeyedHeap κ ν cmp} {i j : Nat} : h.beats i j ↔
    ∃ x y, h.entries[i]? = some x ∧ h.entries[j]? = some y ∧ cmp x.2 y.2 = .gt := by
  unfold beats
  constructor
  · intro hij
    split at hij
    · next x y hx hy => exact ⟨x, y, hx, hy, eq_of_beq hij⟩
    · cases hij
  · rintro ⟨x, y, hx, hy, hxy⟩
    simp [hx, hy, hxy]

theorem beats_congr {h h' : KeyedHeap κ ν cmp} {i j i' j' : Nat}
    (hi : h'.entries[i']? = h.entries[i]?) (hj : h'.entries[j']? = h.entries[j]?) :
    h'.beats i' j' = h.beats i j := by
  unfold beats
  rw [hi, hj]

/-- Exchanging two entries exchanges what their positions beat. -/
theorem beats_swap {h : KeyedHeap κ ν cmp} {i j : Nat} (hi : i < h.size) (hj : j < h.size)
    (a b : Nat) : (h.swap i j).beats a b = h.beats (Equiv.swap i j a) (Equiv.swap i j b) :=
  beats_congr (getElem?_swap hi hj a) (getElem?_swap hi hj b)

section Lawful

variable [Std.TransCmp cmp]

theorem not_beats_self (h : KeyedHeap κ ν cmp) (i : Nat) : ¬ h.beats i i := by
  rw [beats_iff]
  rintro ⟨x, y, hx, hy, hxy⟩
  rw [hx] at hy
  cases hy
  have hself : cmp x.2 x.2 = .eq := Std.ReflCmp.compare_self
  rw [hself] at hxy
  cases hxy

/-- Of two positions only one beats the other. -/
theorem beats_asymm {h : KeyedHeap κ ν cmp} {i j : Nat} (hij : h.beats i j) : ¬ h.beats j i := by
  rcases beats_iff.1 hij with ⟨x, y, hx, hy, hxy⟩
  rw [beats_iff]
  rintro ⟨y', x', hy', hx', hyx⟩
  rw [hy] at hy'
  rw [hx] at hx'
  cases hy'
  cases hx'
  rw [Std.OrientedCmp.gt_iff_lt, hyx] at hxy
  cases hxy

/-- What beats one that beats a third beats the third. -/
theorem beats_trans {h : KeyedHeap κ ν cmp} {i j k : Nat} (hij : h.beats i j)
    (hjk : h.beats j k) : h.beats i k := by
  rcases beats_iff.1 hij with ⟨x, y, hx, hy, hxy⟩
  rcases beats_iff.1 hjk with ⟨y', z, hy', hz, hyz⟩
  rw [hy] at hy'
  cases hy'
  exact beats_iff.2 ⟨x, z, hx, hz, Std.TransCmp.gt_trans hxy hyz⟩

/-- What beats an entry also beats every entry that does not itself beat that one. -/
theorem beats_or_beats {h : KeyedHeap κ ν cmp} {i j k : Nat} (hik : h.beats i k)
    (hj : j < h.size) : h.beats i j ∨ h.beats j k := by
  rcases beats_iff.1 hik with ⟨x, z, hx, hz, hxz⟩
  have hy : h.entries[j]? = some h.entries[j] := Array.getElem?_eq_getElem hj
  by_cases hxy : cmp x.2 h.entries[j].2 = .gt
  · exact .inl (beats_iff.2 ⟨x, _, hx, hy, hxy⟩)
  · refine .inr (beats_iff.2 ⟨_, z, hy, hz, ?_⟩)
    have hle : (cmp x.2 h.entries[j].2).isLE := by
      cases hc : cmp x.2 h.entries[j].2 <;> simp_all
    have hlt : cmp z.2 x.2 = .lt := Std.OrientedCmp.gt_iff_lt.1 hxz
    exact Std.OrientedCmp.gt_iff_lt.2 (Std.TransCmp.lt_of_lt_of_isLE hlt hle)

/-- Nothing beats the top of an ordered heap. -/
theorem Ordered.not_beats_top {h : KeyedHeap κ ν cmp} (ho : h.Ordered) (i : Nat) :
    ¬ h.beats i 0 := by
  induction i using Nat.strongRecOn with
  | ind i ih =>
    by_cases hi : i = 0
    · subst hi
      exact not_beats_self h 0
    · intro hbeats
      have hlt := lt_size_of_beats hbeats
      rcases beats_or_beats (j := parent i) hbeats (by simp only [parent]; omega) with hup | hup
      · exact ho i (by omega) hup
      · exact ih (parent i) (by simp only [parent]; omega) hup

/-! ## Raising an entry -/

/-- Exchanging an entry with a parent that it beats moves the disorder to the parent. -/
theorem NearlyOrdered.raise {h : KeyedHeap κ ν cmp} {i : Nat} (hn : h.NearlyOrdered i)
    (hi : 0 < i) (hbeats : h.beats i (parent i)) :
    (h.swap i (parent i)).NearlyOrdered (parent i) ∧
      (h.swap i (parent i)).SettledBelow (parent i) := by
  have hisize : i < h.size := lt_size_of_beats hbeats
  have hp : parent i < i := by simp only [parent]; omega
  have hpsize : parent i < h.size := by omega
  refine ⟨⟨?_, ?_⟩, ?_⟩
  · intro c hc hcp hpc
    have hci : c ≠ i := by rintro rfl; exact hpc rfl
    rw [beats_swap hisize hpsize, Equiv.swap_apply_of_ne_of_ne hci hcp]
    by_cases hpci : parent c = i
    · rw [hpci, Equiv.swap_apply_left]
      exact hn.across c hc hpci hi
    · rw [Equiv.swap_apply_of_ne_of_ne hpci hpc]
      exact hn.off c hc hci hpci
  · intro c hc hpc hp0
    have hpp : parent (parent i) < parent i := by simp only [parent] at *; omega
    have htop : ¬ h.beats (parent i) (parent (parent i)) :=
      hn.off (parent i) hp0 (by omega) (by omega)
    have hfix : Equiv.swap i (parent i) (parent (parent i)) = parent (parent i) :=
      Equiv.swap_apply_of_ne_of_ne (by omega) (by omega)
    rw [beats_swap hisize hpsize, hfix]
    by_cases hci : c = i
    · rw [hci, Equiv.swap_apply_left]
      exact htop
    · have hcp : c ≠ parent i := by simp only [parent] at *; omega
      rw [Equiv.swap_apply_of_ne_of_ne hci hcp]
      intro hup
      rcases beats_or_beats hup hpsize with hup | hup
      · exact hn.off c hc hci (by omega) (hpc ▸ hup)
      · exact htop hup
  · intro c hc hpc
    rw [beats_swap hisize hpsize, Equiv.swap_apply_right]
    by_cases hci : c = i
    · rw [hci, Equiv.swap_apply_left]
      exact beats_asymm hbeats
    · have hcp : c ≠ parent i := by simp only [parent] at *; omega
      rw [Equiv.swap_apply_of_ne_of_ne hci hcp]
      intro hup
      exact hn.off c hc hci (by omega) (hpc ▸ beats_trans hup hbeats)

/-- Raising an entry stops where it does not beat its parent. -/
theorem NearlyOrdered.siftUp {h : KeyedHeap κ ν cmp} {i : Nat} (hn : h.NearlyOrdered i) :
    (h.siftUp i).1.NearlyOrdered (h.siftUp i).2 ∧
      (0 < (h.siftUp i).2 → ¬ (h.siftUp i).1.beats (h.siftUp i).2 (parent (h.siftUp i).2)) ∧
      (h.SettledBelow i → (h.siftUp i).1.SettledBelow (h.siftUp i).2) := by
  fun_induction KeyedHeap.siftUp h i with
  | case1 h i hup ih =>
      rcases hn.raise hup.1 hup.2 with ⟨hnext, hbelow⟩
      rcases ih hnext with ⟨hnear, hstop, hsettled⟩
      exact ⟨hnear, hstop, fun _ => hsettled hbelow⟩
  | case2 h i hstop => exact ⟨hn, fun hi hbeats => hstop ⟨hi, hbeats⟩, id⟩

/-! ## Lowering an entry -/

/-- The favourite is the entry itself, or the child that beats it and is not beaten by the other. -/
theorem favourite_cases (h : KeyedHeap κ ν cmp) (i : Nat) :
    (h.favourite i = i ∧ ¬ h.beats (2 * i + 1) i ∧ ¬ h.beats (2 * i + 2) i) ∨
      (h.favourite i = 2 * i + 1 ∧ h.beats (2 * i + 1) i ∧ ¬ h.beats (2 * i + 2) (2 * i + 1)) ∨
      (h.favourite i = 2 * i + 2 ∧ h.beats (2 * i + 2) i ∧ ¬ h.beats (2 * i + 1) (2 * i + 2)) := by
  unfold favourite
  dsimp only
  by_cases hleft : h.beats (2 * i + 1) i
  · rw [if_pos hleft]
    by_cases hright : h.beats (2 * i + 2) (2 * i + 1)
    · rw [if_pos hright]
      exact .inr (.inr ⟨rfl, beats_trans hright hleft, beats_asymm hright⟩)
    · rw [if_neg hright]
      exact .inr (.inl ⟨rfl, hleft, hright⟩)
  · rw [if_neg hleft]
    by_cases hright : h.beats (2 * i + 2) i
    · rw [if_pos hright]
      exact .inr (.inr ⟨rfl, hright, fun hup => hleft (beats_trans hup hright)⟩)
    · rw [if_neg hright]
      exact .inl ⟨rfl, hleft, hright⟩

/-- Neither child of an entry beats the favourite among the three. -/
theorem not_beats_favourite (h : KeyedHeap κ ν cmp) (i : Nat) {c : Nat}
    (hc : 0 < c) (hpc : parent c = i) : ¬ h.beats c (h.favourite i) := by
  have hchild : c = 2 * i + 1 ∨ c = 2 * i + 2 := by simp only [parent] at hpc; omega
  rcases h.favourite_cases i with ⟨hf, hleft, hright⟩ | ⟨hf, _, hright⟩ | ⟨hf, _, hleft⟩ <;>
    rw [hf] <;> rcases hchild with rfl | rfl
  · exact hleft
  · exact hright
  · exact not_beats_self h _
  · exact hright
  · exact hleft
  · exact not_beats_self h _

/-- A favourite other than the entry itself is a child that beats it. -/
theorem beats_of_favourite_ne {h : KeyedHeap κ ν cmp} {i : Nat} (hne : h.favourite i ≠ i) :
    h.beats (h.favourite i) i ∧ 0 < h.favourite i ∧ parent (h.favourite i) = i := by
  rcases h.favourite_cases i with ⟨hf, _⟩ | ⟨hf, hbeats, _⟩ | ⟨hf, hbeats, _⟩
  · exact absurd hf hne
  · rw [hf]
    exact ⟨hbeats, by omega, by simp only [parent]; omega⟩
  · rw [hf]
    exact ⟨hbeats, by omega, by simp only [parent]; omega⟩

/-- Exchanging an entry with the greatest of its children moves the disorder to the child. -/
theorem NearlyOrdered.lower {h : KeyedHeap κ ν cmp} {i : Nat} (hn : h.NearlyOrdered i)
    (hne : h.favourite i ≠ i) :
    (h.swap i (h.favourite i)).NearlyOrdered (h.favourite i) ∧
      ¬ (h.swap i (h.favourite i)).beats (h.favourite i) (parent (h.favourite i)) := by
  rcases beats_of_favourite_ne hne with ⟨hbeats, hf, hpf⟩
  have hfsize : h.favourite i < h.size := lt_size_of_beats hbeats
  have hif : i < h.favourite i := by simp only [parent] at hpf; omega
  have hisize : i < h.size := by omega
  refine ⟨⟨?_, ?_⟩, ?_⟩
  · intro c hc hcf hpc
    rw [beats_swap hisize hfsize]
    by_cases hci : c = i
    · subst hci
      rw [Equiv.swap_apply_left, Equiv.swap_apply_of_ne_of_ne (by simp only [parent]; omega) hpc]
      exact hn.across _ hf hpf hc
    · rw [Equiv.swap_apply_of_ne_of_ne hci hcf]
      by_cases hpci : parent c = i
      · rw [hpci, Equiv.swap_apply_left]
        exact not_beats_favourite h i hc hpci
      · rw [Equiv.swap_apply_of_ne_of_ne hpci hpc]
        exact hn.off c hc hci hpci
  · intro c hc hpc _
    have hcf : h.favourite i < c := by simp only [parent] at hpc; omega
    rw [beats_swap hisize hfsize, hpf, Equiv.swap_apply_left,
      Equiv.swap_apply_of_ne_of_ne (by omega) (by omega), ← hpc]
    exact hn.off c hc (by omega) (by omega)
  · rw [hpf, beats_swap hisize hfsize, Equiv.swap_apply_left, Equiv.swap_apply_right]
    exact beats_asymm hbeats

/-- Lowering an entry that does not beat its parent puts the heap in order. -/
theorem NearlyOrdered.siftDown {h : KeyedHeap κ ν cmp} {i : Nat} (hn : h.NearlyOrdered i)
    (hup : 0 < i → ¬ h.beats i (parent i)) : (h.siftDown i).Ordered := by
  fun_induction KeyedHeap.siftDown h i with
  | case1 h i hstop =>
      intro c hc
      by_cases hci : c = i
      · subst hci
        exact hup hc
      · by_cases hpci : parent c = i
        · have hmax := not_beats_favourite h i hc hpci
          rwa [hstop, ← hpci] at hmax
        · exact hn.off c hc hci hpci
  | case2 h i hne ih =>
      rcases hn.lower hne with ⟨hnext, hstop⟩
      exact ih hnext fun _ => hstop

/-! ## Changing the entries -/

omit [Std.TransCmp cmp] in
theorem ordered_empty : (∅ : KeyedHeap κ ν cmp).Ordered := by
  intro i _ hbeats
  exact absurd (lt_size_of_beats hbeats) (Nat.not_lt_zero i)

/-- Adding an entry keeps a heap ordered. -/
theorem Ordered.add {h : KeyedHeap κ ν cmp} (ho : h.Ordered) (k : κ) (x : ν) :
    (h.add k x).2.Ordered := by
  unfold KeyedHeap.add
  split
  · exact ho
  · let pushed : KeyedHeap κ ν cmp :=
      ⟨h.entries.push (k, x), h.positions.insert k h.entries.size⟩
    have hsize : pushed.size = h.size + 1 := Array.size_push ..
    have hchild {c : Nat} (hc : 0 < c) (hpc : parent c = h.size) (j : Nat) :
        ¬ pushed.beats c j := by
      intro hbeats
      have hlt := lt_size_of_beats hbeats
      simp only [parent] at hpc
      omega
    have hnear : pushed.NearlyOrdered h.size := by
      refine ⟨?_, fun c hc hpc _ => hchild hc hpc _⟩
      intro c hc hcn hpcn hbeats
      have hlt := lt_size_of_beats hbeats
      have hold (j : Nat) (hj : j ≠ h.size) : pushed.entries[j]? = h.entries[j]? := by
        have hj' : j ≠ h.entries.size := hj
        simp [pushed, Array.getElem?_push, hj']
      rw [beats_congr (hold c hcn) (hold _ hpcn)] at hbeats
      exact ho c hc hbeats
    rcases hnear.siftUp with ⟨hraised, hstop, hsettled⟩
    have hbelow := hsettled fun c hc hpc => hchild hc hpc _
    intro c hc
    by_cases hcj : c = (pushed.siftUp h.size).2
    · subst hcj
      exact hstop hc
    · by_cases hpc : parent c = (pushed.siftUp h.size).2
      · rw [hpc]
        exact hbelow c hc hpc
      · exact hraised.off c hc hcj hpc

/-- Updating a value keeps a heap ordered. -/
theorem Ordered.update {h : KeyedHeap κ ν cmp} (ho : h.Ordered) (k : κ) (x : ν) :
    (h.update k x).2.Ordered := by
  unfold KeyedHeap.update
  split
  · exact ho
  · next i _ =>
    let changed : KeyedHeap κ ν cmp := ⟨h.entries.modify i fun e => (e.1, x), h.positions⟩
    have hold (j : Nat) (hj : j ≠ i) : changed.entries[j]? = h.entries[j]? := by
      simp [changed, Array.getElem?_modify, Ne.symm hj]
    have hsize : changed.size = h.size := Array.size_modify ..
    have hnear : changed.NearlyOrdered i := by
      refine ⟨?_, ?_⟩
      · intro c hc hci hpci
        rw [beats_congr (hold c hci) (hold _ hpci)]
        exact ho c hc
      · intro c hc hpc hi hbeats
        have hlt := lt_size_of_beats hbeats
        have hci : i < c := by simp only [parent] at hpc; omega
        rw [beats_congr (hold c (by omega)) (hold _ (by simp only [parent]; omega))] at hbeats
        rcases beats_or_beats (j := i) hbeats (by omega) with hup | hup
        · exact ho c hc (hpc ▸ hup)
        · exact ho i hi hup
    rcases hnear.siftUp with ⟨hraised, hstop, _⟩
    exact hraised.siftDown hstop

/-- Taking the top out keeps a heap ordered. -/
theorem Ordered.pop? {h h' : KeyedHeap κ ν cmp} (ho : h.Ordered) {e : κ × ν}
    (hpop : h.pop? = some (e, h')) : h'.Ordered := by
  unfold KeyedHeap.pop? at hpop
  split at hpop
  · cases hpop
  · next top htop =>
    rcases Prod.mk.inj (Option.some.inj hpop) with ⟨rfl, rfl⟩
    have hpos : 0 < h.size := (Array.getElem?_eq_some_iff.1 htop).1
    let rest : KeyedHeap κ ν cmp :=
      ⟨(h.swap 0 (h.size - 1)).entries.pop, (h.swap 0 (h.size - 1)).positions.erase top.1⟩
    have hswap : (h.swap 0 (h.size - 1)).entries.size = h.size := size_swap ..
    have hsize : rest.size = h.size - 1 := by
      rw [← hswap]
      exact Array.size_pop
    have hold (j : Nat) (hj : 0 < j) (hlt : j < h.size - 1) :
        rest.entries[j]? = h.entries[j]? := by
      have hget : rest.entries[j]? = (h.swap 0 (h.size - 1)).entries[j]? := by
        simp [rest, hswap, hlt]
      rw [hget, getElem?_swap hpos (by omega), Equiv.swap_apply_of_ne_of_ne (by omega) (by omega)]
    have hnear : rest.NearlyOrdered 0 := by
      refine ⟨?_, fun c _ _ hlt => absurd hlt (Nat.lt_irrefl 0)⟩
      intro c hc _ hpc hbeats
      have hlt := lt_size_of_beats hbeats
      have hplt : parent c < c := by simp only [parent]; omega
      rw [beats_congr (hold c hc (by omega)) (hold _ (by omega) (by omega))] at hbeats
      exact ho c hc hbeats
    exact hnear.siftDown fun hlt => absurd hlt (Nat.lt_irrefl 0)

/-- The top of an ordered heap carries a greatest value. -/
theorem Ordered.compare_pop? {h h' : KeyedHeap κ ν cmp} (ho : h.Ordered) (hh : h.Indexed)
    {e : κ × ν} (hpop : h.pop? = some (e, h')) {k : κ} {x : ν} (hx : h.value? k = some x) :
    cmp x e.2 ≠ .gt := by
  unfold KeyedHeap.pop? at hpop
  split at hpop
  · cases hpop
  · next top htop =>
    rcases Prod.mk.inj (Option.some.inj hpop) with ⟨rfl, _⟩
    rcases hh.value?_eq_some_iff.1 hx with ⟨i, hi⟩
    intro hgt
    exact ho.not_beats_top i (beats_iff.2 ⟨(k, x), top, hi, htop, hgt⟩)

end Lawful

end KeyedHeap

end BatchOrder
