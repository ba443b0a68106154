import BatchOrder.Cluster
import BatchOrder.Lookup
import BatchOrder.Merge
import BatchOrder.Pruning
import BatchOrder.Schedule.Progress
import BatchOrder.Settings

/-!
# From a batch to an order of execution

A batch is pruned, divided into clusters, scheduled cluster by cluster and merged. Clusters share no
account, so it makes no difference to a cluster whether it is scheduled from the nonces that the
clusters before it have left or from its own part of the nonces at the start.

Main results:

- Theorem `value_scheduleClusters`, in `BatchOrder.Proofs.Planning`: whatever the settings, clusters
  have the orders that each of them has from the nonces at the start.
-/

namespace BatchOrder

/-! ## Scheduling all clusters -/

/-- Schedule clusters one after another, each from the nonces that the one before has left. -/
def scheduleInTurn (st : NonceTable) : List Batch → Logged (List Batch × NonceTable)
  | [] => return ([], st)
  | cluster :: rest => do
    let s ← cluster.scheduleLogged st
    let (orders, final) ← scheduleInTurn s.nonces rest
    return (s.order :: orders, final)

/-- Schedule every cluster from its own part of the nonces at the start. -/
def scheduleApart (st : NonceTable) (clusters : List Batch) : Logged (List Batch) :=
  clusters.mapM fun cluster => do
    return (← cluster.scheduleLogged (st.restrictTo cluster.accounts)).order

/-- Schedule clusters in the way that the settings ask for. -/
def Settings.scheduleClusters (s : Settings) (st : NonceTable) (clusters : List Batch) :
    Logged (List Batch) := do
  if s.sortsApart clusters.length then
    Logged.emit (.sortingApart clusters.length)
    scheduleApart st clusters
  else
    return (← scheduleInTurn st clusters).1

/-! ## Plans -/

/-- Plan the execution of a batch from the given nonces. -/
def Settings.planFrom (s : Settings) (b : Batch) (seed : UInt64) (st : NonceTable) :
    Logged Plan := do
  let cleaned ← b.pruneLogged st
  let clusters ← cleaned.clustersLogged
  let orders ← s.scheduleClusters st clusters
  let transactions := shuffleMerge orders seed
  let report : Report :=
    { input := b.length
      cleaned := cleaned.length
      clusters := clusters.length
      largest := (clusters.map List.length).foldl max 0
      scheduled := transactions.length }
  Logged.emit (.decided report)
  return { transactions, report }

/-- Look the nonces of a batch up and plan its execution from them. -/
def Settings.plan {m : Type → Type} [Monad m] (s : Settings) (b : Batch)
    (lookup : Address → m Nonce) (seed : UInt64) : m (Logged Plan) := do
  return s.planFrom b seed (← b.startingNonces lookup)

/-- The transactions of a batch in the order of execution, under the usual settings. -/
def Batch.executionOrder {m : Type → Type} [Monad m] (b : Batch) (lookup : Address → m Nonce)
    (seed : UInt64) : m Batch := do
  return (← Settings.plan {} b lookup seed).value.transactions

end BatchOrder
