import Mathlib.Algebra.Order.BigOperators.Group.List
import Mathlib.Algebra.Order.Group.Nat
import Mathlib.Data.List.Perm.Subperm
import BatchOrder.Message
import BatchOrder.Proofs.Independence

/-!
# The counts of a plan

The counts of a report are taken at different stages, and none of them exceeds the size of the
batch: pruning adds no transaction, a cluster is a part of what is left and never empty, and no
transaction is planned twice.  So counts of 32 bits are exact for every batch whose size is.

Main results:

- Theorem `nested_mergedPlan`: the counts of a plan stand within one another.
- Theorem `plan_report_adds_up`: the report of a plan adds up.
- Theorem `counts_ofReport`: metrics repeat the counts of a report if the first of them has 32 bits.
-/

namespace BatchOrder

/-- Later counts do not exceed the earlier ones that they are taken from. -/
structure Report.Nested (r : Report) : Prop where
  cleaned_le : r.cleaned ≤ r.input
  clusters_le : r.clusters ≤ r.cleaned
  largest_le : r.largest ≤ r.cleaned
  scheduled_le : r.scheduled ≤ r.cleaned

/-- The counts of a report add up: what is left after pruning is divided into clusters, none of them
empty and none larger than the largest, and what is not scheduled is dropped. -/
structure Report.AddsUp (r : Report) : Prop extends r.Nested where
  clusters_eq_zero_iff : r.clusters = 0 ↔ r.cleaned = 0
  clusters_add_largest_le : r.clusters + r.largest ≤ r.cleaned + 1
  cleaned_le_clusters_mul_largest : r.cleaned ≤ r.clusters * r.largest
  scheduled_add_dropped : r.scheduled + r.dropped = r.input

/-! ## Sizes after each stage -/

/-- There are at most as many classes as elements. -/
theorem length_classes_le {α κ : Type} [BEq κ] [Hashable κ] [LawfulBEq κ] (key : α → κ)
    (xs : List α) : (classes key xs).length ≤ xs.length := by
  rw [classes_eq_map_keepFirst, List.length_map]
  exact (sublist_keepFirst key xs).length_le

namespace Batch

/-- Pruning adds no transaction. -/
theorem length_prune_le (b : Batch) (st : NonceTable) : (b.prune st).length ≤ b.length := by
  rw [prune_eq_keeping, keeping, List.length_map]
  calc (b.candidates.filter _).length ≤ b.candidates.length := List.length_filter_le ..
    _ = b.distinct.length := List.length_map ..
    _ ≤ b.length := (sublist_keepFirst Transaction.main b).length_le

/-- There are at most as many clusters as transactions. -/
theorem length_clusters_le (b : Batch) : b.clusters.length ≤ b.length := by
  rw [clusters_eq]
  exact length_classes_le _ b

/-- No cluster is larger than the batch. -/
theorem length_le_of_mem_clusters {b c : Batch} (hc : c ∈ b.clusters) : c.length ≤ b.length :=
  (sublist_of_mem_clusters hc).length_le

end Batch

/-- A running maximum is bounded if all that it runs through is. -/
theorem foldl_max_le_iff {ns : List Nat} {m bound : Nat} :
    ns.foldl max m ≤ bound ↔ m ≤ bound ∧ ∀ n ∈ ns, n ≤ bound := by
  induction ns generalizing m with
  | nil => simp
  | cons n ns ih => rw [List.foldl_cons, ih, Nat.max_le, List.forall_mem_cons, and_assoc]

/-- Parts that are not empty have, beside the largest, an element each at least. -/
theorem length_add_foldl_max_le {ns : List Nat} (hpos : ∀ n ∈ ns, 0 < n) (m : Nat) :
    ns.length + ns.foldl max m ≤ ns.sum + max m 1 := by
  induction ns generalizing m with
  | nil => simp
  | cons n ns ih =>
      rcases List.forall_mem_cons.1 hpos with ⟨hn, hpos⟩
      have hrest := ih hpos (max m n)
      rw [List.length_cons, List.foldl_cons, List.sum_cons]
      omega

/-- A sum is at most the greatest term as often as there are terms. -/
theorem sum_le_length_mul_foldl_max (ns : List Nat) : ns.sum ≤ ns.length * ns.foldl max 0 :=
  List.sum_le_card_nsmul ns _ (foldl_max_le_iff.1 (Nat.le_refl _)).2

/-! ## Sizes of what is planned -/

/-- What settles a batch has no more transactions than the batch, since no main action runs
twice. -/
theorem Settles.length_le {st : NonceTable} {b order : Batch} (h : Settles st b order)
    (hlast : ∀ tx ∈ b, tx.main.nonce < Nonce.last) : order.length ≤ b.length := by
  have hnodup := h.nodup_mains hlast
  have hsubset : order.mains ⊆ b.mains := List.map_subset _ h.subset
  have hle := (hnodup.subperm hsubset).length_le
  rwa [Batch.mains, Batch.mains, List.length_map, List.length_map] at hle

/-- None of the counts of a plan exceeds one that it is taken from. -/
theorem nested_mergedPlan (b : Batch) (seed : UInt64) (st : NonceTable) :
    (b.mergedPlan seed st).report.Nested := by
  have hscheduled := (settles_mergedPlan b seed st).length_le fun _ => main_lt_last_of_mem_prune
  have hlargest : ∀ n ∈ (b.prune st).clusters.map List.length, n ≤ (b.prune st).length :=
    List.forall_mem_map.2 fun _ hc => Batch.length_le_of_mem_clusters hc
  unfold Batch.mergedPlan at hscheduled ⊢
  constructor <;> dsimp only at hscheduled ⊢
  · exact b.length_prune_le st
  · exact (b.prune st).length_clusters_le
  · exact foldl_max_le_iff.2 ⟨Nat.zero_le _, hlargest⟩
  · exact hscheduled

/-- The counts of a plan add up. -/
theorem addsUp_mergedPlan (b : Batch) (seed : UInt64) (st : NonceTable) :
    (b.mergedPlan seed st).report.AddsUp := by
  have hnested := nested_mergedPlan b seed st
  have hsum := (b.prune st).sum_length_clusters
  have hpos : ∀ n ∈ (b.prune st).clusters.map List.length, 0 < n :=
    List.forall_mem_map.2 fun _ hc => List.length_pos_iff.2 (Batch.ne_nil_of_mem_clusters hc)
  have hlargest := length_add_foldl_max_le hpos 0
  have hmul := sum_le_length_mul_foldl_max ((b.prune st).clusters.map List.length)
  rw [List.length_map, hsum] at hlargest hmul
  have hscheduled := Nat.le_trans hnested.scheduled_le hnested.cleaned_le
  refine { hnested with
    clusters_eq_zero_iff := ?_
    clusters_add_largest_le := hlargest
    cleaned_le_clusters_mul_largest := hmul
    scheduled_add_dropped := Nat.add_sub_cancel' hscheduled }
  constructor
  · intro hclusters
    change (b.prune st).clusters.length = 0 at hclusters
    rw [hclusters, Nat.zero_mul] at hmul
    exact Nat.eq_zero_of_le_zero hmul
  · intro hcleaned
    exact Nat.eq_zero_of_le_zero (hcleaned ▸ hnested.clusters_le)

/-- The report of a plan adds up: its counts are the sizes that they stand for, each within the one
before, the clusters divide what is left after pruning, and what is not planned is dropped.  And
everything planned was submitted; only authorizations have been removed. -/
theorem plan_report_adds_up (s : Settings) (b : Batch) (provider : Address → Nonce)
    (seed : UInt64) :
    (s.planWith b provider seed).report.input = b.length ∧
      (s.planWith b provider seed).report.scheduled =
        (s.planWith b provider seed).transactions.length ∧
      (s.planWith b provider seed).report.AddsUp ∧
      ∀ tx ∈ (s.planWith b provider seed).transactions,
        ∃ tx' ∈ b, tx.main = tx'.main ∧ tx.auth.Sublist tx'.auth := by
  rw [planWith_eq]
  refine ⟨b.input_mergedPlan seed _, b.scheduled_mergedPlan seed _, addsUp_mergedPlan b seed _,
    fun tx htx => ?_⟩
  exact exists_sublist_of_mem_prune ((settles_mergedPlan b seed _).subset htx)

/-! ## Counts of 32 bits -/

/-- The counts of metrics are those of a report. -/
structure Metrics.Counts (m : Metrics) (r : Report) : Prop where
  total : m.total.toNat = r.input
  cleaned : m.cleaned.toNat = r.cleaned
  clusters : m.clusters.toNat = r.clusters
  largest : m.largest.toNat = r.largest
  scheduled : m.scheduled.toNat = r.scheduled

/-- Nothing is cut from the counts of a report if the size of the batch has 32 bits. -/
theorem counts_ofReport {r : Report} (hr : r.Nested) (hinput : r.input < UInt32.size)
    (time : UInt64) : (Metrics.ofReport r time).Counts r := by
  have hcut {n : Nat} (hn : n ≤ r.input) : n.toUInt32.toNat = n :=
    UInt32.toNat_ofNat_of_lt (Nat.lt_of_le_of_lt hn hinput)
  have hcleaned := hr.cleaned_le
  exact
    { total := hcut (Nat.le_refl _)
      cleaned := hcut hcleaned
      clusters := hcut (Nat.le_trans hr.clusters_le hcleaned)
      largest := hcut (Nat.le_trans hr.largest_le hcleaned)
      scheduled := hcut (Nat.le_trans hr.scheduled_le hcleaned) }

end BatchOrder
