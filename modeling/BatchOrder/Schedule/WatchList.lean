import Std.Data.HashMap
import BatchOrder.Transaction

/-!
# Watch lists

When an account advances from a nonce to the next, only the transactions that name it at that nonce,
at the one before or at the one after can change their standing. A watch list answers, for an
action, which transactions of a batch those are.
-/

namespace BatchOrder

/-- The positions in a batch of the transactions that watch an action. -/
structure WatchList where
  watchers : Std.HashMap Action (List Nat)

namespace WatchList

/-- The actions that a transaction watches on account of one of its own. -/
def watched (a : Action) : List Action := [a.pred, a, a.succ]

/-- Put a position in front of the watchers of an action, unless it stands there already. -/
def register (w : WatchList) (i : Nat) (a : Action) : WatchList :=
  ⟨w.watchers.alter a fun
    | some (j :: rest) => some (if j = i then j :: rest else i :: j :: rest)
    | _ => some [i]⟩

/-- The watch list of the transactions whose positions start at `i`. -/
def ofBatchFrom (i : Nat) : Batch → WatchList
  | [] => ⟨∅⟩
  | tx :: rest => (tx.actions.flatMap watched).foldl (register · i) (ofBatchFrom (i + 1) rest)

/-- The watch list of a batch. -/
def ofBatch (b : Batch) : WatchList := ofBatchFrom 0 b

/-- The positions of the transactions that watch an action, in rising order. -/
def watchersOf (w : WatchList) (a : Action) : List Nat := w.watchers.getD a []

/-- Forget who watches an action. -/
def erase (w : WatchList) (a : Action) : WatchList := ⟨w.watchers.erase a⟩

end WatchList

end BatchOrder
