import BatchOrder.Event
import BatchOrder.KeepFirst
import BatchOrder.NonceTable

/-!
# Pruning a batch

Three passes remove what can never run: transactions with the main action of an earlier one,
authorizations that their own transaction defeats or that it repeats, and actions whose nonce the
batch itself gives no way to reach. Every pass keeps the order of what it leaves.

Main results:

- Theorems `value_distinctLogged`, `value_satisfiableLogged`, `value_reachableLogged` and
  `value_pruneLogged`: reporting changes no result.
-/

namespace BatchOrder

/-! ## Repeated main actions and hopeless authorizations -/

/-- The first transaction for every main action. -/
def Batch.distinct (b : Batch) : Batch := keepFirst Transaction.main b

/-- Whether an authorization stands for the account of the main action itself, at its nonce or
below. When its turn has passed already, it can never be spent. -/
def Transaction.defeats (tx : Transaction) (a : Action) : Bool :=
  a.sender = tx.main.sender && a.nonce ≤ tx.main.nonce

/-- Without the authorizations that the transaction defeats, and of the others the first of each. -/
def Transaction.satisfiable (tx : Transaction) : Transaction :=
  { tx with auth := keepFirst id (tx.auth.filter fun a => !tx.defeats a) }

/-- Every transaction with only those authorizations that may come to hold. -/
def Batch.satisfiable (b : Batch) : Batch := b.map Transaction.satisfiable

/-! ## Reachable actions -/

/-- The first nonce, from `n` on, with which an account has no action in `named`. The last nonce
is never passed, whether the account has an action with it or not. -/
def endOfRun (named : Std.HashSet Action) (a : Address) (n : Nonce) : Nonce :=
  if named.contains ⟨a, n⟩ ∧ n ≠ Nonce.last then endOfRun named a (n + 1) else n
termination_by Nonce.last.toNat - n.toNat
decreasing_by
  next h =>
  have hn : n.toNat ≠ Nonce.last.toNat := fun e => h.2 (UInt64.toNat_inj.1 e)
  have := n.toNat_lt
  rw [Nonce.toNat_last] at hn ⊢
  rw [UInt64.toNat_add, UInt64.toNat_one]
  omega

/-- For every account with an entry, the end of the run of nonces that the batch gives it. -/
def Batch.runEnds (b : Batch) (st : NonceTable) : NonceTable :=
  let named := Std.HashSet.ofList b.actions
  ⟨st.entries.map (endOfRun named)⟩

/-- Whether an action stands in the run of its account, which starts at the entry in `st` and stops
before the entry in `ends`. -/
def reaches (st ends : NonceTable) (a : Action) : Bool :=
  match ends.find? a.sender with
  | some stop => st.get a.sender ≤ a.nonce && a.nonce < stop
  | none => false

/-- The transactions whose main action is reachable, with their reachable authorizations. -/
def Batch.reachable (b : Batch) (st : NonceTable) : Batch :=
  let ends := b.runEnds st
  (b.filter fun tx => reaches st ends tx.main).map fun tx =>
    { tx with auth := tx.auth.filter (reaches st ends) }

/-- All three passes. -/
def Batch.prune (b : Batch) (st : NonceTable) : Batch := b.distinct.satisfiable.reachable st

/-! ## Reporting passes -/

/-- The number of authorizations in a batch. -/
def Batch.authCount (b : Batch) : Nat := (b.flatMap Transaction.auth).length

/-- Keep the first transaction for every main action, and report how many go. -/
def Batch.distinctLogged (b : Batch) : Logged Batch := do
  let rest := b.distinct
  Logged.emitIf (rest.length < b.length) (.droppedDuplicates (b.length - rest.length))
  return rest

/-- Drop hopeless authorizations, and report how many go. -/
def Batch.satisfiableLogged (b : Batch) : Logged Batch := do
  let rest := b.satisfiable
  let removed := b.authCount - rest.authCount
  Logged.emitIf (0 < removed) (.droppedAuthorizations removed)
  return rest

/-- Drop unreachable actions, and report how many transactions go and how many authorizations those
that stay lose. -/
def Batch.reachableLogged (b : Batch) (st : NonceTable) : Logged Batch := do
  let rest := b.reachable st
  let ends := b.runEnds st
  let stripped :=
    Batch.authCount (b.filter fun tx => reaches st ends tx.main) - rest.authCount
  Logged.emitIf (rest.length < b.length || 0 < stripped)
    (.droppedUnreachable (b.length - rest.length) stripped)
  return rest

/-- All three passes with their reports. -/
def Batch.pruneLogged (b : Batch) (st : NonceTable) : Logged Batch := do
  (← (← b.distinctLogged).satisfiableLogged).reachableLogged st

/-- Reporting does not change what the first pass leaves. -/
@[simp] theorem Batch.value_distinctLogged (b : Batch) : b.distinctLogged.value = b.distinct := rfl

/-- Reporting does not change what the second pass leaves. -/
@[simp] theorem Batch.value_satisfiableLogged (b : Batch) :
    b.satisfiableLogged.value = b.satisfiable := rfl

/-- Reporting does not change what the third pass leaves. -/
@[simp] theorem Batch.value_reachableLogged (b : Batch) (st : NonceTable) :
    (b.reachableLogged st).value = b.reachable st := rfl

/-- Reporting does not change what the passes leave. -/
@[simp] theorem Batch.value_pruneLogged (b : Batch) (st : NonceTable) :
    (b.pruneLogged st).value = b.prune st := rfl

end BatchOrder
