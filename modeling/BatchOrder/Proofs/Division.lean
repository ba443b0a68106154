import Mathlib.Data.List.FinRange
import BatchOrder.Proofs.Cluster

/-!
# The division of a batch into clusters

A batch may hold equal transactions, so what the clusters do with it is told by places: each cluster
takes some places of the batch, and no two clusters take the same one.  Two places go to the same
cluster exactly if a chain of transactions joins them in which neighbours name a common account.  No
division into parts without common accounts is finer.

Main results:

- Theorem `joined_iff_chained`: chains from account to account are chains from place to place.
- Theorem `FinestDivision.eq_of_mem`: what does not tell neighbours apart does not tell apart the
  places of one part.
- Theorem `clusters_divide_finest`: the clusters are the finest division into parts without common
  accounts.
-/

namespace BatchOrder

namespace Batch

variable {b : Batch} {s t : Address} {i j : Fin b.length}

/-- The set of accounts holds those that the batch names. -/
theorem mem_accounts : s ∈ b.accounts ↔ s ∈ b.named := by
  unfold accounts
  rw [Std.ExtTreeSet.mem_ofList, List.contains_iff_mem]
  rfl

/-! ## Chains of places -/

/-- The transactions at two places name a common account. -/
def SharesAccount (b : Batch) (i j : Fin b.length) : Prop :=
  ∃ s ∈ (b.get i).senders, s ∈ (b.get j).senders

/-- A chain of places leads from one to another, and neighbours in it name a common account. -/
def Chained (b : Batch) : Fin b.length → Fin b.length → Prop :=
  Relation.ReflTransGen b.SharesAccount

/-- Chains from account to account are chains from place to place. -/
theorem joined_iff_chained (hs : s ∈ (b.get i).senders) (ht : t ∈ (b.get j).senders) :
    b.Joined s t ↔ b.Chained i j := by
  constructor
  · intro hst
    induction hst generalizing j with
    | refl => exact .single ⟨s, hs, ht⟩
    | tail _ hstep ih =>
        rcases hstep with ⟨tx, htx, hx, hy⟩
        rcases List.get_of_mem htx with ⟨k, rfl⟩
        exact (ih hx).tail ⟨_, hy, ht⟩
  · intro hij
    induction hij generalizing t with
    | refl => exact .single ⟨b.get i, List.get_mem .., hs, ht⟩
    | @tail k l _ hstep ih =>
        rcases hstep with ⟨x, hxk, hxl⟩
        exact (ih hxk).tail ⟨b.get l, List.get_mem .., hxl, ht⟩

/-! ## The finest division -/

/-- A division of the places of a batch: every place is in one part, the places of a part rise, no
part is empty, the parts stand in the order of their first places, and two places are in one part
exactly if a chain joins them. -/
structure FinestDivision (b : Batch) (parts : List (List (Fin b.length))) : Prop where
  once : parts.flatten.Perm (List.finRange b.length)
  inOrder : ∀ part ∈ parts, part.Pairwise (· < ·)
  nonempty : ∀ part ∈ parts, part ≠ []
  byFirst : parts.Pairwise fun part part' => ∀ i ∈ part.head?, ∀ j ∈ part'.head?, i < j
  chained : ∀ i j, (∃ part ∈ parts, i ∈ part ∧ j ∈ part) ↔ b.Chained i j

/-- Every division that keeps places with a common account together keeps the places of one part
together. -/
theorem FinestDivision.eq_of_mem {parts : List (List (Fin b.length))} (h : b.FinestDivision parts)
    {label : Fin b.length → Nat} (hlabel : ∀ i j, b.SharesAccount i j → label i = label j)
    {part : List (Fin b.length)} (hpart : part ∈ parts) (hi : i ∈ part) (hj : j ∈ part) :
    label i = label j := by
  have hchain {k : Fin b.length} (hik : b.Chained i k) : label i = label k := by
    induction hik with
    | refl => rfl
    | tail _ hstep ih => exact ih.trans (hlabel _ _ hstep)
  exact hchain ((h.chained i j).1 ⟨part, hpart, hi, hj⟩)

/-! ## Clusters by place -/

/-- The number of the component to which the main action at a place belongs. -/
def componentAt (b : Batch) (i : Fin b.length) : Option Nat :=
  (LinkGraph.ofBatch b).components[(b.get i).main.sender]?

/-- Two places have one component exactly if a chain joins them. -/
theorem componentAt_eq_iff : b.componentAt i = b.componentAt j ↔ b.Chained i j := by
  unfold componentAt
  rw [LinkGraph.components_ofBatch_eq_iff (mains_mem_named (List.get_mem b i))]
  exact joined_iff_chained List.mem_cons_self List.mem_cons_self

/-- The clusters are the classes of places, read in the batch. -/
theorem clusters_eq_map_classes (b : Batch) :
    b.clusters = (classes b.componentAt (List.finRange b.length)).map (List.map b.get) := by
  have hmap : classes (fun tx => (LinkGraph.ofBatch b).components[tx.main.sender]?)
      ((List.finRange b.length).map b.get) =
        (classes b.componentAt (List.finRange b.length)).map (List.map b.get) :=
    classes_map fun _ _ _ _ => Iff.rfl
  rwa [List.map_get_finRange, ← clusters_eq] at hmap

/-- The classes of places by component are the finest division. -/
theorem finestDivision_classes (b : Batch) :
    b.FinestDivision (classes b.componentAt (List.finRange b.length)) where
  once := flatten_classes_perm _ _
  inOrder _ hpart := (List.pairwise_lt_finRange _).sublist (sublist_of_mem_classes hpart)
  nonempty _ hpart := ne_nil_of_mem_classes hpart
  byFirst := pairwise_head?_classes (List.pairwise_lt_finRange _)
  chained i j :=
    (exists_mem_classes_iff (List.mem_finRange i) (List.mem_finRange j)).trans componentAt_eq_iff

/-- Every transaction has a component, and the clusters divide the places of the batch among them:
each place is in one cluster, no cluster is empty, they keep the order of the batch and stand in the
order of their first transactions.  Two transactions are in one cluster exactly if a chain joins
them in which neighbours name a common account, and two clusters name none. -/
theorem clusters_divide_finest (b : Batch) :
    (∀ tx ∈ b, (LinkGraph.ofBatch b).components.contains tx.main.sender) ∧
      (∃ parts, b.FinestDivision parts ∧ b.clusters = parts.map (List.map b.get)) ∧
      b.clusters.Pairwise fun c d => ∀ s ∈ c.accounts, s ∉ d.accounts := by
  refine ⟨fun tx htx => LinkGraph.contains_components_ofBatch htx,
    ⟨_, b.finestDivision_classes, b.clusters_eq_map_classes⟩, ?_⟩
  rw [List.pairwise_iff_getElem]
  intro i j hi hj hij s hs hs'
  exact apart_clusters (Nat.ne_of_lt hij) (List.getElem?_eq_getElem hi)
    (List.getElem?_eq_getElem hj) s (mem_accounts.1 hs) (mem_accounts.1 hs')

end Batch

end BatchOrder
