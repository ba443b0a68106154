import BatchOrder.Report

/-!
# Renaming accounts

A renaming puts another address in the place of every address and leaves everything else where it
is: nonces, authorizations in their order and transactions in theirs.
-/

namespace BatchOrder

variable (f : Address → Address)

/-- The action of the renamed account with the same nonce. -/
def Action.rename (a : Action) : Action := { a with sender := f a.sender }

/-- The transaction with all its accounts renamed. -/
def Transaction.rename (tx : Transaction) : Transaction where
  main := tx.main.rename f
  auth := tx.auth.map (Action.rename f)

/-- The batch with all its accounts renamed. -/
def Batch.rename (b : Batch) : Batch := b.map (Transaction.rename f)

/-- The plan with all its accounts renamed; the report names none. -/
def Plan.rename (p : Plan) : Plan := { p with transactions := Batch.rename f p.transactions }

/-! ## What is renamed -/

/-- A renamed action is one of the renamed account. -/
@[simp] theorem Action.sender_rename (a : Action) : (a.rename f).sender = f a.sender := rfl

/-- Renaming keeps the nonce of an action. -/
@[simp] theorem Action.nonce_rename (a : Action) : (a.rename f).nonce = a.nonce := rfl

/-- The main action of a renamed transaction is the renamed main action. -/
@[simp] theorem Transaction.main_rename (tx : Transaction) :
    (tx.rename f).main = tx.main.rename f := rfl

/-- The authorizations of a renamed transaction are the renamed authorizations. -/
@[simp] theorem Transaction.auth_rename (tx : Transaction) :
    (tx.rename f).auth = tx.auth.map (Action.rename f) := rfl

/-- The actions of a renamed transaction are the renamed actions. -/
@[simp] theorem Transaction.actions_rename (tx : Transaction) :
    (tx.rename f).actions = tx.actions.map (Action.rename f) := rfl

/-- A renamed transaction names the renamed accounts. -/
@[simp] theorem Transaction.senders_rename (tx : Transaction) :
    (tx.rename f).senders = tx.senders.map f := by
  unfold Transaction.senders
  rw [Transaction.actions_rename, List.map_map, List.map_map]
  rfl

namespace Batch

/-- The main actions of a renamed batch are the renamed main actions. -/
@[simp] theorem mains_rename (b : Batch) :
    (b.rename f).mains = b.mains.map (Action.rename f) := by
  simp [mains, Batch.rename]

/-- The actions of a renamed batch are the renamed actions. -/
@[simp] theorem actions_rename (b : Batch) :
    (b.rename f).actions = b.actions.map (Action.rename f) := by
  simp [actions, Batch.rename, List.flatMap_map, List.map_flatMap]

/-- A renamed batch names the renamed accounts. -/
@[simp] theorem senders_rename (b : Batch) : (b.rename f).senders = b.senders.map f := by
  simp [senders, Function.comp_def]

/-- Renaming keeps every transaction at its position. -/
@[simp] theorem getElem?_rename (b : Batch) (i : Nat) :
    (b.rename f)[i]? = b[i]?.map (Transaction.rename f) :=
  List.getElem?_map ..

end Batch

end BatchOrder
