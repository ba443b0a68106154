import BatchOrder.NonceTable

/-!
# Replaying transactions

What the execution of transactions does to the nonces. A main action has to be the next one of its
account; an authorization is spent if it is the next one of its account and has no effect otherwise.
-/

namespace BatchOrder

/-- Spend an authorization if it is next in turn. -/
def NonceTable.spend (st : NonceTable) (a : Action) : NonceTable :=
  if a.nonce = st.get a.sender then st.advance a.sender else st

/-- Execute a transaction; `none` if its main action is not next in turn. -/
def NonceTable.execute? (st : NonceTable) (tx : Transaction) : Option NonceTable :=
  if tx.main.nonce = st.get tx.main.sender then
    some (tx.auth.foldl NonceTable.spend (st.advance tx.main.sender))
  else none

/-- Execute transactions one after another; `none` if one of them cannot run. -/
def NonceTable.replay? (st : NonceTable) (b : Batch) : Option NonceTable :=
  b.foldlM NonceTable.execute? st

end BatchOrder
