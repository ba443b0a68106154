import Std.Data.HashSet

/-!
# First occurrences

Keep of a list the first element for every key.

Main results:

- Theorem `sublist_keepFirst`: what is kept stands in the order of the list.
- Theorem `nodup_map_keepFirst`: no key occurs twice in what is kept.
- Theorem `mem_map_keepFirst`: every key that occurs in the list occurs in what is kept.
-/

namespace BatchOrder

universe u v

variable {α : Type u} {κ : Type v} [BEq κ] [Hashable κ]

/-- The elements whose key is not among those seen and not that of an element before them. -/
def keepFirstBeyond (key : α → κ) : Std.HashSet κ → List α → List α
  | _, [] => []
  | seen, x :: xs =>
    if seen.contains (key x) then keepFirstBeyond key seen xs
    else x :: keepFirstBeyond key (seen.insert (key x)) xs

/-- The elements whose key no earlier element has, in order. -/
def keepFirst (key : α → κ) (xs : List α) : List α := keepFirstBeyond key ∅ xs

/-! ## What is kept -/

/-- Whatever keys have been seen, what is kept stands in the order of the list. -/
theorem sublist_keepFirstBeyond (key : α → κ) (seen : Std.HashSet κ) (xs : List α) :
    (keepFirstBeyond key seen xs).Sublist xs := by
  induction xs generalizing seen with
  | nil => exact .slnil
  | cons x xs ih =>
    unfold keepFirstBeyond
    split
    · exact (ih seen).cons x
    · exact (ih _).cons_cons x

/-- What is kept stands in the order of the list. -/
theorem sublist_keepFirst (key : α → κ) (xs : List α) : (keepFirst key xs).Sublist xs :=
  sublist_keepFirstBeyond ..

/-- The keys of what is kept are those of the list that have not been seen. -/
theorem mem_map_keepFirstBeyond [LawfulBEq κ] (key : α → κ) (seen : Std.HashSet κ) (xs : List α)
    (k : κ) : k ∈ (keepFirstBeyond key seen xs).map key ↔ k ∈ xs.map key ∧ k ∉ seen := by
  induction xs generalizing seen with
  | nil => simp [keepFirstBeyond]
  | cons x xs ih =>
    unfold keepFirstBeyond
    by_cases hx : seen.contains (key x)
    · have hmem : key x ∈ seen := Std.HashSet.mem_iff_contains.2 hx
      rw [if_pos hx, ih, List.map_cons, List.mem_cons]
      constructor
      · exact fun ⟨h, hk⟩ => ⟨.inr h, hk⟩
      · rintro ⟨rfl | h, hk⟩
        · exact absurd hmem hk
        · exact ⟨h, hk⟩
    · have hmem : key x ∉ seen := fun h => hx (Std.HashSet.mem_iff_contains.1 h)
      rw [if_neg hx, List.map_cons, List.map_cons, List.mem_cons, List.mem_cons, ih,
        Std.HashSet.mem_insert, beq_iff_eq, not_or]
      by_cases hk : k = key x
      · simp [hk, hmem]
      · simp [hk, Ne.symm hk]

/-- The keys of what is kept are those of the list. -/
theorem mem_map_keepFirst [LawfulBEq κ] {key : α → κ} {xs : List α} {k : κ} :
    k ∈ (keepFirst key xs).map key ↔ k ∈ xs.map key := by
  simp [keepFirst, -List.mem_map, mem_map_keepFirstBeyond]

/-- Whatever keys have been seen, no key occurs twice in what is kept. -/
theorem nodup_map_keepFirstBeyond [LawfulBEq κ] (key : α → κ) (seen : Std.HashSet κ)
    (xs : List α) : ((keepFirstBeyond key seen xs).map key).Nodup := by
  induction xs generalizing seen with
  | nil => exact List.nodup_nil
  | cons x xs ih =>
    unfold keepFirstBeyond
    split
    · exact ih seen
    · rw [List.map_cons, List.nodup_cons]
      refine ⟨fun h => ?_, ih _⟩
      exact ((mem_map_keepFirstBeyond ..).1 h).2 Std.HashSet.mem_insert_self

/-- No key occurs twice in what is kept. -/
theorem nodup_map_keepFirst [LawfulBEq κ] (key : α → κ) (xs : List α) :
    ((keepFirst key xs).map key).Nodup :=
  nodup_map_keepFirstBeyond ..

end BatchOrder
