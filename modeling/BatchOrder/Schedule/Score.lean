import Std.Data.HashSet
import BatchOrder.NonceTable
import BatchOrder.Standing

/-!
# The score of a waiting transaction

How a transaction stands while it waits depends on the nonces as they are now and on the main
actions that wait beside it.
-/

namespace BatchOrder

/-- The standing of a transaction. An authorization collides if it is next in turn and waits as a
main action too, and it is blocked if its turn has not come; one whose turn has passed is
neither. -/
def Transaction.score (tx : Transaction) (st : NonceTable) (pending : Std.HashSet Action) :
    Standing where
  runnable := st.get tx.main.sender = tx.main.nonce
  colliding := tx.auth.countP fun a => a.nonce = st.get a.sender && pending.contains a
  blocked := tx.auth.countP fun a => st.get a.sender < a.nonce
  authorizations := tx.auth.length

end BatchOrder
