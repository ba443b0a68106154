import BatchOrder.Action

/-!
# Transactions and batches

A transaction runs its main action and carries authorizations: actions of other accounts, or later
ones of its own, that it spends along the way if their turn has come. A batch is a list of
transactions in the order of submission.
-/

namespace BatchOrder

/-- A main action with the authorizations that it spends, in order. -/
structure Transaction where
  main : Action
  auth : List Action
deriving DecidableEq, Hashable, Inhabited

/-- Transactions in the order of submission. -/
abbrev Batch := List Transaction

namespace Transaction

/-- The main action and then the authorizations. -/
def actions (tx : Transaction) : List Action := tx.main :: tx.auth

/-- The accounts of the actions, in order and with repetitions. -/
def senders (tx : Transaction) : List Address := tx.actions.map Action.sender

end Transaction

namespace Batch

/-- The actions of a batch, in order and with repetitions. -/
def actions (b : Batch) : List Action := b.flatMap Transaction.actions

/-- The accounts a batch names, in order and with repetitions. -/
def senders (b : Batch) : List Address := b.actions.map Action.sender

/-- The main actions of a batch, in order. -/
def mains (b : Batch) : List Action := b.map Transaction.main

end Batch

end BatchOrder
