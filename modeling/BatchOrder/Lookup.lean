import BatchOrder.KeepFirst
import BatchOrder.NonceTable

/-!
# Looking up initial nonces

The nonces from which a batch runs come from outside, one account at a time. A lookup is an action
of any monad, so that it can be traced or can fail; the accounts asked for and their order are fixed
here.

Main results:

- Theorem `tracedStartingNonces_eq`, in `BatchOrder.Proofs.Lookup`: every account that a batch names
  is asked for once, in the order of first appearance.
-/

namespace BatchOrder

/-- The accounts that a batch names, each once, in the order of first appearance. -/
def Batch.namedAccounts (b : Batch) : List Address := keepFirst id b.senders

/-- The table with the nonces that `lookup` gives for the accounts of a batch. -/
def Batch.startingNonces {m : Type → Type} [Monad m] (b : Batch) (lookup : Address → m Nonce) :
    m NonceTable := do
  let entries ← b.namedAccounts.mapM fun a => do return (a, ← lookup a)
  return NonceTable.ofList entries

/-! ## Lookups that are traced and may fail -/

/-- Computations that record the accounts asked for and may fail. -/
abbrev Traced (ε : Type) := StateT (Array Address) (Except ε)

/-- Look an account up and record that it was asked for, the latest last. -/
def traced {ε : Type} (lookup : Address → Except ε Nonce) (a : Address) : Traced ε Nonce := do
  modify (·.push a)
  lookup a

/-- The table that the lookups give and the accounts asked for, or the failure of a lookup. -/
def Batch.tracedStartingNonces {ε : Type} (b : Batch) (lookup : Address → Except ε Nonce) :
    Except ε (NonceTable × Array Address) :=
  (b.startingNonces (traced lookup)).run #[]

end BatchOrder
