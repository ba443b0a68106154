import BatchOrder.Proofs.Pruning

/-!
# What is left of a batch

Pruning passes over a batch three times, remembers what it has seen and looks for the end of every
run.  What it leaves can be told without passes: of every main action the first transaction, of its
authorizations the first of each that the transaction does not defeat; and of these transactions and
authorizations the ones that are reachable.  An action is reachable if its account is known and has
not passed it, a later nonce exists, and the transactions name the account with every nonce in
between.

Main results:

- Theorem `candidates_eq_admitted`: what the first two passes leave.
- Theorem `reaches_iff_reachable`: what the ends of the runs decide.
- Theorem `prune_leaves_remainder`: what all passes leave.
-/

namespace BatchOrder

namespace Batch

/-! ## The remainder, told without passes -/

/-- Of every main action the first transaction, with the first of every authorization that is not of
the account of the main action with its nonce or one below. -/
def admitted (b : Batch) : Batch :=
  (firsts Transaction.main b).map fun tx =>
    { tx with
      auth := firsts id (tx.auth.filter fun a =>
        ¬ (a.sender = tx.main.sender ∧ a.nonce ≤ tx.main.nonce)) }

/-- An action is reachable if its account has an entry, the batch names the account with every nonce
from there to that of the action, and this is not the last. -/
def Reachable (b : Batch) (st : NonceTable) (a : Action) : Prop :=
  ∃ n, st.find? a.sender = some n ∧ n ≤ a.nonce ∧ a.nonce < Nonce.last ∧
    ∀ k, n ≤ k → k ≤ a.nonce → ⟨a.sender, k⟩ ∈ b.actions

variable {b : Batch} {st : NonceTable}

/-- The ends of the runs decide what is reachable. -/
theorem reaches_iff_reachable {a : Action} :
    reaches st (b.runEnds st) a ↔ b.Reachable st a := by
  rw [reaches_iff_forall, Reachable, NonceTable.get]
  cases st.find? a.sender with
  | none => simp
  | some n => simp

instance (b : Batch) (st : NonceTable) : DecidablePred (b.Reachable st) :=
  fun _ => decidable_of_iff _ reaches_iff_reachable

/-- The admitted transactions with a reachable main action, each with its reachable
authorizations. -/
def remainder (b : Batch) (st : NonceTable) : Batch :=
  (b.admitted.filter fun tx => b.admitted.Reachable st tx.main).map fun tx =>
    { tx with auth := tx.auth.filter fun a => b.admitted.Reachable st a }

/-! ## Pruning leaves the remainder -/

/-- Of a transaction the second pass leaves the first of every authorization that it does not
defeat. -/
theorem satisfiable_eq (tx : Transaction) : tx.satisfiable =
    { tx with
      auth := firsts id (tx.auth.filter fun a =>
        ¬ (a.sender = tx.main.sender ∧ a.nonce ≤ tx.main.nonce)) } := by
  have hdefeats (a : Action) : (!tx.defeats a) =
      decide (¬ (a.sender = tx.main.sender ∧ a.nonce ≤ tx.main.nonce)) := by
    rw [Transaction.defeats, decide_not, Bool.decide_and]
  rw [Transaction.satisfiable, keepFirst_eq_firsts, List.filter_congr fun a _ => hdefeats a]

/-- The first two passes leave the admitted transactions. -/
theorem candidates_eq_admitted (b : Batch) : b.candidates = b.admitted := by
  unfold candidates satisfiable distinct admitted
  rw [keepFirst_eq_firsts]
  exact List.map_congr_left fun tx _ => satisfiable_eq tx

/-- All passes together leave the remainder. -/
theorem prune_eq_remainder (b : Batch) (st : NonceTable) : b.prune st = b.remainder st := by
  have hreach (a : Action) : reaches st (b.admitted.runEnds st) a =
      decide (b.admitted.Reachable st a) := by
    rw [Bool.eq_iff_iff, decide_eq_true_eq]
    exact reaches_iff_reachable
  rw [prune_eq_keeping, candidates_eq_admitted]
  exact keeping_congr fun a _ => hreach a

/-- Pruning leaves exactly the remainder: the admitted transactions with a reachable main action, in
order, each with exactly its reachable authorizations, in order.  So no main action is left twice,
no authorization is left twice in a transaction, and none of the account of the main action with its
nonce or one below. -/
theorem prune_leaves_remainder (b : Batch) (st : NonceTable) :
    b.prune st = b.remainder st ∧ (b.prune st).mains.Nodup ∧
      ∀ tx ∈ b.prune st, tx.auth.Nodup ∧
        ∀ a ∈ tx.auth, ¬ (a.sender = tx.main.sender ∧ a.nonce ≤ tx.main.nonce) := by
  refine ⟨prune_eq_remainder b st, nodup_mains_prune b st, fun tx htx => ?_⟩
  refine ⟨nodup_auth_of_mem_prune htx, fun a ha hself => ?_⟩
  exact UInt64.not_le.2 (main_lt_of_mem_auth_prune htx ha hself.1) hself.2

end Batch

end BatchOrder
