import Mathlib.Data.List.Basic
import Mathlib.Data.List.Induction
import BatchOrder.KeepFirst

/-!
# What is kept of a list

The first element with every key is kept, whatever stands before and behind it.  So keeping works
piece by piece: what is kept of a piece depends on the pieces before it by their keys only, and
keeping commutes with taking the elements that satisfy a condition on their keys and with maps that
keep keys apart.

Main results:

- Theorem `keepFirstBeyond_append`: what is kept of two lists in a row.
- Theorem `keepFirst_eq_firsts`: what is kept, told by positions.
- Theorem `find?_of_mem_keepFirst`: what is kept for a key is the first element with it.
- Theorem `pairwise_idxOf_keepFirst`: what is kept is in the order of its first places.
- Theorems `keepFirst_filter` and `keepFirst_map`: keeping commutes with filters and maps.
-/

namespace BatchOrder

variable {α κ : Type} [BEq κ] [Hashable κ] {key : α → κ}

/-- An element whose key has been seen is passed over. -/
theorem keepFirstBeyond_cons_of_mem {seen : Std.HashSet κ} {x : α} (hx : key x ∈ seen)
    (xs : List α) : keepFirstBeyond key seen (x :: xs) = keepFirstBeyond key seen xs :=
  if_pos (Std.HashSet.mem_iff_contains.1 hx)

/-- An element whose key has not been seen is kept, and its key is seen from then on. -/
theorem keepFirstBeyond_cons_of_not_mem {seen : Std.HashSet κ} {x : α} (hx : key x ∉ seen)
    (xs : List α) :
    keepFirstBeyond key seen (x :: xs) = x :: keepFirstBeyond key (seen.insert (key x)) xs :=
  if_neg fun hseen => hx (Std.HashSet.mem_iff_contains.2 hseen)

variable [LawfulBEq κ]

/-- What is kept depends on which keys have been seen, not on how they are held. -/
theorem keepFirstBeyond_congr {seen seen' : Std.HashSet κ} (h : ∀ k, k ∈ seen ↔ k ∈ seen')
    (xs : List α) : keepFirstBeyond key seen xs = keepFirstBeyond key seen' xs := by
  induction xs generalizing seen seen' with
  | nil => rfl
  | cons x xs ih =>
      by_cases hx : key x ∈ seen
      · rw [keepFirstBeyond_cons_of_mem hx, keepFirstBeyond_cons_of_mem ((h _).1 hx), ih h]
      · have hinsert (k : κ) : k ∈ seen.insert (key x) ↔ k ∈ seen'.insert (key x) := by
          rw [Std.HashSet.mem_insert, Std.HashSet.mem_insert, h]
        rw [keepFirstBeyond_cons_of_not_mem hx,
          keepFirstBeyond_cons_of_not_mem fun hx' => hx ((h _).2 hx'), ih hinsert]

/-- What is kept of a list depends on the part before it by the keys of that part only. -/
theorem keepFirstBeyond_append {seen seen' : Std.HashSet κ} {xs : List α}
    (h : ∀ k, k ∈ seen' ↔ k ∈ seen ∨ k ∈ xs.map key) (ys : List α) :
    keepFirstBeyond key seen (xs ++ ys) =
      keepFirstBeyond key seen xs ++ keepFirstBeyond key seen' ys := by
  induction xs generalizing seen with
  | nil => exact keepFirstBeyond_congr (fun k => by simp [h]) ys
  | cons x xs ih =>
      rw [List.cons_append]
      by_cases hx : key x ∈ seen
      · have hkeys (k : κ) : k ∈ seen' ↔ k ∈ seen ∨ k ∈ xs.map key := by
          rw [h, List.map_cons, List.mem_cons]
          constructor
          · rintro (hk | rfl | hk)
            · exact .inl hk
            · exact .inl hx
            · exact .inr hk
          · exact Or.imp_right .inr
        rw [keepFirstBeyond_cons_of_mem hx, keepFirstBeyond_cons_of_mem hx, ih hkeys]
      · have hkeys (k : κ) : k ∈ seen' ↔ k ∈ seen.insert (key x) ∨ k ∈ xs.map key := by
          rw [h, Std.HashSet.mem_insert, beq_iff_eq, List.map_cons, List.mem_cons,
            eq_comm (a := k), or_left_comm, or_assoc]
        rw [keepFirstBeyond_cons_of_not_mem hx, keepFirstBeyond_cons_of_not_mem hx, ih hkeys,
          List.cons_append]

/-- What is kept has a key that has not been seen, and is the first element with it. -/
theorem find?_of_mem_keepFirstBeyond {seen : Std.HashSet κ} {xs : List α} {x : α}
    (hx : x ∈ keepFirstBeyond key seen xs) :
    key x ∉ seen ∧ xs.find? (fun y => key y == key x) = some x := by
  induction xs generalizing seen with
  | nil => cases hx
  | cons y ys ih =>
      by_cases hy : key y ∈ seen
      · rw [keepFirstBeyond_cons_of_mem hy] at hx
        rcases ih hx with ⟨hnew, hfind⟩
        have hne : key y ≠ key x := fun heq => hnew (heq ▸ hy)
        rw [List.find?_cons_of_neg (by simpa using hne)]
        exact ⟨hnew, hfind⟩
      · rw [keepFirstBeyond_cons_of_not_mem hy] at hx
        rcases List.mem_cons.1 hx with rfl | hx
        · rw [List.find?_cons_of_pos (by simp)]
          exact ⟨hy, rfl⟩
        · rcases ih hx with ⟨hnew, hfind⟩
          rw [Std.HashSet.mem_insert, beq_iff_eq, not_or] at hnew
          rw [List.find?_cons_of_neg (by simpa using hnew.1)]
          exact ⟨hnew.2, hfind⟩

/-- What is kept for a key is the first element with it. -/
theorem find?_of_mem_keepFirst {xs : List α} {x : α} (hx : x ∈ keepFirst key xs) :
    xs.find? (fun y => key y == key x) = some x :=
  (find?_of_mem_keepFirstBeyond hx).2

/-- Every element of a list is kept once. -/
theorem mem_keepFirst_id {xs : List κ} {k : κ} : k ∈ keepFirst id xs ↔ k ∈ xs := by
  have h : k ∈ (keepFirst id xs).map id ↔ k ∈ xs.map id := mem_map_keepFirst
  rwa [List.map_id, List.map_id] at h

/-- No element is kept twice. -/
theorem nodup_keepFirst_id (xs : List κ) : (keepFirst id xs).Nodup := by
  have hnodup := nodup_map_keepFirst id xs
  rwa [List.map_id] at hnodup

/-- The elements whose key no element at an earlier position has. -/
def firsts {α κ : Type} [DecidableEq κ] (key : α → κ) (xs : List α) : List α :=
  (xs.zipIdx.filter fun e => key e.1 ∉ (xs.take e.2).map key).map Prod.fst

/-- What is kept, told by positions.  On the way, the keys that have been seen stand for the part of
the list that has been passed. -/
theorem keepFirst_eq_firsts {α κ : Type} [DecidableEq κ] [Hashable κ] (key : α → κ) (xs : List α) :
    keepFirst key xs = firsts key xs := by
  have hbeyond (passed : List α) (seen : Std.HashSet κ)
      (hseen : ∀ k, k ∈ seen ↔ k ∈ passed.map key) :
      keepFirstBeyond key seen xs = ((xs.zipIdx passed.length).filter fun e =>
        key e.1 ∉ ((passed ++ xs).take e.2).map key).map Prod.fst := by
    induction xs generalizing passed seen with
    | nil => rfl
    | cons x xs ih =>
        have hrest (seen' : Std.HashSet κ) (hseen' : ∀ k, k ∈ seen' ↔ k ∈ (passed ++ [x]).map key) :
            keepFirstBeyond key seen' xs = ((xs.zipIdx (passed.length + 1)).filter fun e =>
              key e.1 ∉ ((passed ++ x :: xs).take e.2).map key).map Prod.fst := by
          have := ih (passed ++ [x]) seen' hseen'
          rwa [List.append_assoc, List.singleton_append, List.length_append] at this
        have hnew : key x ∉ ((passed ++ x :: xs).take passed.length).map key ↔ key x ∉ seen := by
          rw [List.take_left, hseen]
        rw [List.zipIdx_cons]
        by_cases hx : key x ∈ seen
        · rw [keepFirstBeyond_cons_of_mem hx, List.filter_cons_of_neg (by simpa [hx] using hnew)]
          apply hrest
          intro k
          rw [hseen, List.map_append, List.mem_append, List.map_singleton, List.mem_singleton]
          exact ⟨.inl, fun hk => hk.elim id fun hkx => (hseen k).1 (hkx ▸ hx)⟩
        · rw [keepFirstBeyond_cons_of_not_mem hx,
            List.filter_cons_of_pos (by simpa [hx] using hnew), List.map_cons]
          apply congrArg (List.cons x)
          apply hrest
          intro k
          rw [Std.HashSet.mem_insert, hseen, List.map_append, List.mem_append, List.map_singleton,
            List.mem_singleton, beq_iff_eq, or_comm, eq_comm (a := k)]
  exact hbeyond [] ∅ fun k => by simp

/-- Keeping commutes with filtering by a condition that does not tell elements with one key
apart. -/
theorem keepFirst_filter {p : α → Bool} {xs : List α}
    (hp : ∀ x ∈ xs, ∀ y ∈ xs, key x = key y → p x = p y) :
    keepFirst key (xs.filter p) = (keepFirst key xs).filter p := by
  have hbeyond (seen seen' : Std.HashSet κ)
      (hseen : ∀ x ∈ xs, p x → (key x ∈ seen ↔ key x ∈ seen')) :
      keepFirstBeyond key seen (xs.filter p) = (keepFirstBeyond key seen' xs).filter p := by
    induction xs generalizing seen seen' with
    | nil => rfl
    | cons x xs ih =>
        have hp' : ∀ y ∈ xs, ∀ z ∈ xs, key y = key z → p y = p z := fun y hy z hz =>
          hp y (List.mem_cons_of_mem _ hy) z (List.mem_cons_of_mem _ hz)
        have hseen' (y : α) (hy : y ∈ xs) := hseen y (List.mem_cons_of_mem _ hy)
        by_cases hpx : p x
        · rw [List.filter_cons_of_pos hpx]
          by_cases hx : key x ∈ seen
          · rw [keepFirstBeyond_cons_of_mem hx,
              keepFirstBeyond_cons_of_mem ((hseen x List.mem_cons_self hpx).1 hx)]
            exact ih hp' seen seen' hseen'
          · have hx' : key x ∉ seen' := fun hx' => hx ((hseen x List.mem_cons_self hpx).2 hx')
            rw [keepFirstBeyond_cons_of_not_mem hx, keepFirstBeyond_cons_of_not_mem hx',
              List.filter_cons_of_pos hpx, ih hp' _ _ fun y hy hpy => ?_]
            rw [Std.HashSet.mem_insert, Std.HashSet.mem_insert, hseen' y hy hpy]
        · rw [List.filter_cons_of_neg hpx]
          by_cases hx : key x ∈ seen'
          · rw [keepFirstBeyond_cons_of_mem hx]
            exact ih hp' seen seen' hseen'
          · rw [keepFirstBeyond_cons_of_not_mem hx, List.filter_cons_of_neg hpx]
            apply ih hp' seen
            intro y hy hpy
            have hne : key x ≠ key y := by
              intro hxy
              rw [hp x List.mem_cons_self y (List.mem_cons_of_mem _ hy) hxy] at hpx
              exact hpx hpy
            rw [Std.HashSet.mem_insert, hseen' y hy hpy]
            simp [hne]
  exact hbeyond ∅ ∅ fun _ _ _ => Iff.rfl

/-- Keeping commutes with a map that neither makes keys equal nor tells equal keys apart. -/
theorem keepFirst_map {β κ' : Type} [BEq κ'] [Hashable κ'] [LawfulBEq κ'] {key' : β → κ'}
    {f : α → β} {xs : List α}
    (hf : ∀ x ∈ xs, ∀ y ∈ xs, key' (f x) = key' (f y) ↔ key x = key y) :
    keepFirst key' (xs.map f) = (keepFirst key xs).map f := by
  have hbeyond (seen : Std.HashSet κ) (seen' : Std.HashSet κ')
      (hseen : ∀ x ∈ xs, key' (f x) ∈ seen' ↔ key x ∈ seen) :
      keepFirstBeyond key' seen' (xs.map f) = (keepFirstBeyond key seen xs).map f := by
    induction xs generalizing seen seen' with
    | nil => rfl
    | cons x xs ih =>
        have hf' : ∀ y ∈ xs, ∀ z ∈ xs, key' (f y) = key' (f z) ↔ key y = key z :=
          fun y hy z hz => hf y (List.mem_cons_of_mem _ hy) z (List.mem_cons_of_mem _ hz)
        have hseen' (y : α) (hy : y ∈ xs) := hseen y (List.mem_cons_of_mem _ hy)
        rw [List.map_cons]
        by_cases hx : key x ∈ seen
        · rw [keepFirstBeyond_cons_of_mem hx,
            keepFirstBeyond_cons_of_mem ((hseen x List.mem_cons_self).2 hx)]
          exact ih hf' seen seen' hseen'
        · have hx' : key' (f x) ∉ seen' := fun hx' => hx ((hseen x List.mem_cons_self).1 hx')
          rw [keepFirstBeyond_cons_of_not_mem hx, keepFirstBeyond_cons_of_not_mem hx',
            List.map_cons, ih hf' _ _ fun y hy => ?_]
          rw [Std.HashSet.mem_insert, Std.HashSet.mem_insert, hseen' y hy, beq_iff_eq, beq_iff_eq,
            hf x List.mem_cons_self y (List.mem_cons_of_mem _ hy)]
  exact hbeyond ∅ ∅ fun _ _ => by simp

/-- An element at the end is kept if it does not occur before. -/
theorem keepFirst_append_singleton {α : Type} [BEq α] [Hashable α] [LawfulBEq α] [DecidableEq α]
    (xs : List α) (x : α) : keepFirst id (xs ++ [x]) =
      if x ∈ xs then keepFirst id xs else keepFirst id xs ++ [x] := by
  have hseen (k : α) : k ∈ Std.HashSet.ofList xs ↔ k ∈ (∅ : Std.HashSet α) ∨ k ∈ xs.map id := by
    simp [Std.HashSet.mem_ofList]
  have happend := keepFirstBeyond_append hseen [x]
  have hmem : id x ∈ Std.HashSet.ofList xs ↔ x ∈ xs := by simp [hseen]
  rw [keepFirst, happend]
  split
  · next hx =>
    rw [keepFirstBeyond_cons_of_mem (hmem.2 hx)]
    exact List.append_nil _
  · next hx =>
    rw [keepFirstBeyond_cons_of_not_mem fun h => hx (hmem.1 h)]
    rfl

/-- Elements are kept in the order of their first places. -/
theorem pairwise_idxOf_keepFirst {α : Type} [BEq α] [Hashable α] [LawfulBEq α] [DecidableEq α]
    (xs : List α) : (keepFirst id xs).Pairwise fun x y => xs.idxOf x < xs.idxOf y := by
  induction xs using List.reverseRecOn with
  | nil => exact List.Pairwise.nil
  | append_singleton xs x ih =>
      have hplace {y : α} (hy : y ∈ keepFirst id xs) : (xs ++ [x]).idxOf y = xs.idxOf y :=
        List.idxOf_append_of_mem (mem_keepFirst_id.1 hy)
      have hrest : (keepFirst id xs).Pairwise fun y z =>
          (xs ++ [x]).idxOf y < (xs ++ [x]).idxOf z := by
        refine ih.imp_of_mem fun hy hz hyz => ?_
        rwa [hplace hy, hplace hz]
      rw [keepFirst_append_singleton]
      split
      · exact hrest
      · next hx =>
        rw [List.pairwise_append]
        refine ⟨hrest, List.pairwise_singleton .., fun y hy z hz => ?_⟩
        rw [List.mem_singleton.1 hz, hplace hy, List.idxOf_append_of_notMem hx]
        exact Nat.lt_add_right _ (List.idxOf_lt_length_iff.2 (mem_keepFirst_id.1 hy))

end BatchOrder
