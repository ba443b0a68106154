import Std.Data.ExtTreeSet
import BatchOrder.Event
import BatchOrder.KeepFirst
import BatchOrder.LinkGraph

/-!
# Clusters

A batch falls into clusters of transactions that share no account with each other, neither directly
nor through further transactions. Clusters can be ordered one by one.

Main results:

- Theorem `value_clustersLogged`: reporting changes no result.
-/

namespace BatchOrder

universe u v

/-- The elements with each key that occurs, in the order in which the keys first occur. -/
def classes {α : Type u} {κ : Type v} [BEq κ] [Hashable κ] (key : α → κ) (xs : List α) :
    List (List α) :=
  let byKey : Std.HashMap κ (List α) :=
    xs.foldr (fun x m => m.alter (key x) fun c => some (x :: c.getD [])) ∅
  (keepFirst id (xs.map key)).map fun k => byKey.getD k []

/-- The accounts that a batch names. -/
def Batch.accounts (b : Batch) : Std.ExtTreeSet Address := Std.ExtTreeSet.ofList b.senders

/-- Divide a batch by the connected component, in a graph, of the accounts of the main actions.
Transactions whose account has no component are skipped. -/
def Batch.dividedBy (b : Batch) (g : LinkGraph) : List Batch :=
  let components := g.components
  classes (fun tx => components[tx.main.sender]?) <|
    b.filter fun tx => components.contains tx.main.sender

/-- The clusters of a batch in the order of their first transactions, each in the order of the
batch. -/
def Batch.clusters (b : Batch) : List Batch := b.dividedBy (LinkGraph.ofBatch b)

/-- The clusters of a batch, with a report of the graph that they come from. -/
def Batch.clustersLogged (b : Batch) : Logged (List Batch) := do
  let g := LinkGraph.ofBatch b
  let clusters := b.dividedBy g
  Logged.emit (.clustered g.nodeCount g.linkCount clusters.length)
  return clusters

/-- Reporting does not change the clusters. -/
@[simp] theorem Batch.value_clustersLogged (b : Batch) : b.clustersLogged.value = b.clusters := rfl

end BatchOrder
