/-!
# Positional numerals of a fixed width

A byte string, a string of hexadecimal digits and the words of a key are all numerals of a known
width. This module writes and reads such numerals to any base, most significant digit first.

Main results:

- Theorem `ofDigits_digits`: reading the `n` digits of a number gives the number modulo `b ^ n`.
-/

namespace BatchOrder

/-- The last `n` digits of `x` to the base `b`, most significant first. -/
def digits (b : Nat) : Nat → Nat → List Nat
  | 0, _ => []
  | n + 1, x => digits b n (x / b) ++ [x % b]

/-- The number that `ds` denotes to the base `b`, most significant digit first. -/
def ofDigits (b : Nat) (ds : List Nat) : Nat :=
  ds.foldl (fun x d => x * b + d) 0

@[simp] theorem length_digits (b n x : Nat) : (digits b n x).length = n := by
  induction n generalizing x with
  | zero => rfl
  | succ n ih => simp [digits, ih]

@[simp] theorem ofDigits_nil (b : Nat) : ofDigits b [] = 0 := rfl

/-- A digit that is appended is less significant than all others. -/
@[simp] theorem ofDigits_append_singleton (b d : Nat) (ds : List Nat) :
    ofDigits b (ds ++ [d]) = ofDigits b ds * b + d := by
  simp [ofDigits]

/-- Every digit lies below the base. -/
theorem lt_of_mem_digits {b n x d : Nat} (hb : 0 < b) (h : d ∈ digits b n x) : d < b := by
  induction n generalizing x with
  | zero => simp [digits] at h
  | succ n ih =>
    rcases List.mem_append.1 h with h | h
    · exact ih h
    · rw [List.mem_singleton.1 h]; exact Nat.mod_lt _ hb

/-- The `n` digits of a number determine it modulo `b ^ n`. -/
theorem ofDigits_digits (b n x : Nat) : ofDigits b (digits b n x) = x % Nat.pow b n := by
  change ofDigits b (digits b n x) = x % b ^ n
  induction n generalizing x with
  | zero => simp [digits, Nat.mod_one]
  | succ n ih =>
    rw [digits, ofDigits_append_singleton, ih, Nat.pow_succ', Nat.mod_mul, Nat.mul_comm,
      Nat.add_comm]

end BatchOrder
