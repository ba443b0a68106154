import Std.Data.ExtTreeMap
import Std.Data.ExtTreeSet
import BatchOrder.Transaction

/-!
# Nonce tables

The next nonce of every account that is known. An account without an entry counts as one whose next
nonce is zero, but it stays distinguishable from an account with an entry.

Main results:

- Theorem `NonceTable.ext_find?`: a table is determined by its entries.
- Theorems `find?_set`, `find?_advance` and `find?_restrictTo` say what each operation does to an
  entry.
-/

namespace BatchOrder

/-- A finite map from accounts to their next nonces. -/
structure NonceTable where
  entries : Std.ExtTreeMap Address Nonce
deriving DecidableEq

namespace NonceTable

/-- No account is known. -/
def empty : NonceTable := ⟨∅⟩

instance : EmptyCollection NonceTable := ⟨empty⟩

instance : Inhabited NonceTable := ⟨∅⟩

/-- The entry of an account. -/
def find? (st : NonceTable) (a : Address) : Option Nonce := st.entries[a]?

/-- The next nonce of an account, zero if it has no entry. -/
def get (st : NonceTable) (a : Address) : Nonce := (st.find? a).getD 0

/-- Whether an account has an entry. -/
def contains (st : NonceTable) (a : Address) : Bool := st.entries.contains a

/-- The number of accounts with an entry. -/
def size (st : NonceTable) : Nat := st.entries.size

/-- Whether no account has an entry. -/
def isEmpty (st : NonceTable) : Bool := st.entries.isEmpty

/-- Give an account an entry in place of any that it had. -/
def set (st : NonceTable) (a : Address) (n : Nonce) : NonceTable := ⟨st.entries.insert a n⟩

/-- Advance the nonce of an account by one. -/
def advance (st : NonceTable) (a : Address) : NonceTable := st.set a (Nonce.succ (st.get a))

/-- The entries in the order of the accounts. -/
def toList (st : NonceTable) : List (Address × Nonce) := st.entries.toList

/-- The table with the given entries; of several for one account the last counts. -/
def ofList (entries : List (Address × Nonce)) : NonceTable :=
  entries.foldl (fun st e => st.set e.1 e.2) ∅

/-- Give an account in `part` the entry that it has in `st`, if it has one there. -/
def copyEntry (st part : NonceTable) (a : Address) : NonceTable :=
  match st.find? a with
  | some n => part.set a n
  | none => part

/-- The part of a table that concerns the given accounts. -/
def restrictTo (st : NonceTable) (accounts : Std.ExtTreeSet Address) : NonceTable :=
  accounts.toList.foldl (st.copyEntry ·) ∅

/-! ## Entries after each operation -/

@[simp] theorem find?_empty (a : Address) : (∅ : NonceTable).find? a = none :=
  Std.ExtTreeMap.getElem?_empty

/-- Tables with the same entries are equal. -/
theorem ext_find? {st st' : NonceTable} (h : ∀ a, st.find? a = st'.find? a) : st = st' := by
  cases st; cases st'
  exact congrArg mk (Std.ExtTreeMap.ext_getElem? h)

/-- An account is known if it has an entry. -/
theorem contains_eq_isSome (st : NonceTable) (a : Address) :
    st.contains a = (st.find? a).isSome := by
  simp [contains, find?]

/-- Setting a nonce makes it the entry of its account and keeps all others. -/
theorem find?_set (st : NonceTable) (a b : Address) (n : Nonce) :
    (st.set a n).find? b = if a = b then some n else st.find? b := by
  simp [set, find?, Std.ExtTreeMap.getElem?_insert]

/-- Setting a nonce makes it the next one of its account and keeps all others. -/
theorem get_set (st : NonceTable) (a b : Address) (n : Nonce) :
    (st.set a n).get b = if a = b then n else st.get b := by
  unfold get
  rw [find?_set]
  split <;> simp

/-- Advancing an account gives it an entry for the successor of its nonce and keeps all others. -/
theorem find?_advance (st : NonceTable) (a b : Address) :
    (st.advance a).find? b = if a = b then some (Nonce.succ (st.get a)) else st.find? b :=
  find?_set ..

/-- Advancing an account makes the successor of its nonce the next one and keeps all others. -/
theorem get_advance (st : NonceTable) (a b : Address) :
    (st.advance a).get b = if a = b then Nonce.succ (st.get a) else st.get b :=
  get_set ..

/-- Copying the entries of some accounts puts them in the place of those that were there. -/
private theorem find?_foldl_copyEntry (st part : NonceTable) (as : List Address) (b : Address) :
    (as.foldl (st.copyEntry ·) part).find? b =
      if b ∈ as then (st.find? b).or (part.find? b) else part.find? b := by
  induction as generalizing part with
  | nil => simp
  | cons a as ih =>
    rw [List.foldl_cons, ih]
    have : (st.copyEntry part a).find? b =
        if a = b then (st.find? b).or (part.find? b) else part.find? b := by
      unfold copyEntry
      split <;> rename_i h <;> by_cases hab : a = b <;> simp_all [find?_set]
    rw [this]
    by_cases hab : a = b
    · subst hab
      cases st.find? a <;> simp
    · simp [hab, Ne.symm hab]

/-- A part of a table has the entries of its accounts and no others. -/
theorem find?_restrictTo (st : NonceTable) (accounts : Std.ExtTreeSet Address) (b : Address) :
    (st.restrictTo accounts).find? b = if b ∈ accounts then st.find? b else none := by
  rw [restrictTo, find?_foldl_copyEntry]
  simp

end NonceTable

end BatchOrder
