import BatchOrder.Proofs.Independence

/-!
# Transactions that share no account do not interfere

If no transaction of a batch names both accounts of a set and others, the batch falls into the part
of the set and the rest.  Every stage treats the part as if the rest were not there: pruning looks
at the actions of one account at a time, clusters lie in the part or outside of it, and a cluster is
scheduled from the nonces of its own accounts.  Only the merge mixes the part with the rest.

Main results:

- Theorem `Splits.prune_part`: what is left of the part after pruning.
- Theorem `Splits.clusters_prune_part`: the clusters of the part are clusters of the whole batch.
- Theorem `plan_of_part`: the plan of a batch contains the plan of the part, up to the merge.
-/

namespace BatchOrder

open NonceTable

/-- Whether the account of the main action belongs to a set. -/
def Transaction.mainIn (D : Set Address) [DecidablePred (· ∈ D)] (tx : Transaction) : Bool :=
  tx.main.sender ∈ D

variable {b c : Batch} {D : Set Address} {st st' : NonceTable}

namespace Batch

/-- No transaction of the batch names both accounts of the set and others. -/
def Splits (b : Batch) (D : Set Address) : Prop :=
  ∀ tx ∈ b, (∀ s ∈ tx.senders, s ∈ D) ∨ ∀ s ∈ tx.senders, s ∉ D

instance : DecidablePred (· ∈ b.named) := fun s => inferInstanceAs (Decidable (s ∈ b.senders))

instance [DecidablePred (· ∈ D)] : Decidable (b.Splits D) :=
  inferInstanceAs (Decidable (∀ tx ∈ b, _))

/-- The transactions that name only accounts of a set. -/
def part (b : Batch) (D : Set Address) [DecidablePred (· ∈ D)] : Batch :=
  b.filter fun tx => tx.senders.all (· ∈ D)

end Batch

/-! ## A batch that splits -/

namespace Batch

/-- All accounts of a transaction are in the set if that of its main action is. -/
theorem Splits.mem_iff (h : b.Splits D) {tx : Transaction} (htx : tx ∈ b) {s : Address}
    (hs : s ∈ tx.senders) : s ∈ D ↔ tx.main.sender ∈ D := by
  rcases h tx htx with hin | hout
  · exact iff_of_true (hin s hs) (hin _ List.mem_cons_self)
  · exact iff_of_false (hout s hs) (hout _ List.mem_cons_self)

/-- A set that splits a batch splits every batch each of whose transactions names no more accounts
than one of it. -/
theorem Splits.of_senders_subset (h : b.Splits D)
    (hsub : ∀ tx ∈ c, ∃ tx' ∈ b, tx.senders ⊆ tx'.senders) : c.Splits D := by
  intro tx htx
  rcases hsub tx htx with ⟨tx', htx', hsenders⟩
  rcases h tx' htx' with hin | hout
  · exact .inl fun s hs => hin s (hsenders hs)
  · exact .inr fun s hs => hout s (hsenders hs)

variable [DecidablePred (· ∈ D)]

/-- Transactions with a common account belong both to the part or both to the rest. -/
theorem Splits.mainIn_eq (h : b.Splits D) {tx tx' : Transaction} (htx : tx ∈ b) (htx' : tx' ∈ b)
    {s : Address} (hs : s ∈ tx.senders) (hs' : s ∈ tx'.senders) : tx.mainIn D = tx'.mainIn D := by
  unfold Transaction.mainIn
  rw [decide_eq_decide, ← h.mem_iff htx hs, h.mem_iff htx' hs']

/-- The main actions tell which transactions are in the part. -/
theorem Splits.part_eq (h : b.Splits D) : b.part D = b.filter (Transaction.mainIn D) := by
  apply List.filter_congr
  intro tx htx
  unfold Transaction.mainIn
  rw [Bool.eq_iff_iff, List.all_eq_true, decide_eq_true_iff]
  constructor
  · intro hall
    exact of_decide_eq_true (hall _ List.mem_cons_self)
  · intro hmain s hs
    exact decide_eq_true ((h.mem_iff htx hs).2 hmain)

/-! ## Pruning the part -/

/-- The first two passes treat the part as if the rest were not there. -/
theorem candidates_filter :
    candidates (b.filter (Transaction.mainIn D)) =
      b.candidates.filter (Transaction.mainIn D) := by
  have hdistinct : distinct (b.filter (Transaction.mainIn D)) =
      b.distinct.filter (Transaction.mainIn D) := by
    apply keepFirst_filter
    intro tx _ tx' _ hmain
    unfold Transaction.mainIn
    rw [hmain]
  rw [candidates, hdistinct, candidates, satisfiable, satisfiable, List.filter_map]
  rfl

/-- Keeping what a condition holds for treats the part as if the rest were not there. -/
theorem keeping_filter (b : Batch) (r : Action → Bool) :
    keeping (b.filter (Transaction.mainIn D)) r =
      (b.keeping r).filter (Transaction.mainIn D) := by
  unfold keeping
  rw [List.filter_map, List.filter_filter, List.filter_filter]
  apply congrArg (List.map _)
  apply List.filter_congr
  intro tx _
  exact Bool.and_comm ..

/-- The part names its accounts with all nonces with which the whole batch names them. -/
theorem Splits.mem_actions_filter_iff (h : b.Splits D) {a : Action}
    (ha : a ∈ actions (b.filter (Transaction.mainIn D))) (n : Nonce) :
    ⟨a.sender, n⟩ ∈ actions (b.filter (Transaction.mainIn D)) ↔ ⟨a.sender, n⟩ ∈ b.actions := by
  rcases List.mem_flatMap.1 ha with ⟨tx, htx, hact⟩
  rcases List.mem_filter.1 htx with ⟨hmem, hmain⟩
  constructor
  · intro hn
    rcases List.mem_flatMap.1 hn with ⟨tx', htx', hact'⟩
    exact List.mem_flatMap.2 ⟨tx', List.mem_of_mem_filter htx', hact'⟩
  · intro hn
    rcases List.mem_flatMap.1 hn with ⟨tx', htx', hact'⟩
    have hnames : a.sender ∈ tx'.senders := List.mem_map.2 ⟨_, hact', rfl⟩
    have hsame := h.mainIn_eq htx' hmem hnames (List.mem_map_of_mem hact)
    exact List.mem_flatMap.2 ⟨tx', List.mem_filter.2 ⟨htx', hsame.trans hmain⟩, hact'⟩

/-- Pruning treats the part as if the rest were not there, if the nonces of its accounts are the
same. -/
theorem Splits.prune_part (h : b.Splits D)
    (hfind : ∀ s ∈ (b.part D).named, st'.find? s = st.find? s) :
    (b.part D).prune st' = (b.prune st).filter (Transaction.mainIn D) := by
  have hsplits : b.candidates.Splits D := h.of_senders_subset fun _ => exists_of_mem_candidates
  have hcandidates : (b.part D).candidates = b.candidates.filter (Transaction.mainIn D) := by
    rw [h.part_eq, candidates_filter]
  have hreaches : ∀ a ∈ (b.part D).candidates.actions,
      reaches st' ((b.part D).candidates.runEnds st') a =
        reaches st (b.candidates.runEnds st) a := by
    intro a ha
    apply reaches_congr rfl (hfind _ (named_candidates_subset (sender_mem_named ha)))
    rw [hcandidates] at ha ⊢
    exact hsplits.mem_actions_filter_iff ha
  rw [prune_eq_keeping, prune_eq_keeping, keeping_congr hreaches, hcandidates, keeping_filter]

/-! ## Clusters of the part -/

/-- A cluster that does not lie in the part lies in the rest. -/
theorem Splits.not_mainIn_of_mem_clusters (h : b.Splits D) (hc : c ∈ b.clusters)
    (hall : ¬ c.all (Transaction.mainIn D)) {tx : Transaction} (htx : tx ∈ c) :
    ¬ tx.mainIn D := by
  intro hmain
  apply hall
  rw [List.all_eq_true]
  intro tx' htx'
  rw [← hmain]
  exact eq_of_mem_clusters (fun x hx y hy s hs hs' => h.mainIn_eq hx hy hs hs') hc htx' htx

/-- A cluster of the part has the order that it has in the whole batch. -/
theorem schedule_part (hfind : ∀ s ∈ (b.part D).named, st'.find? s = st.find? s)
    (hc : c ∈ ((b.part D).prune st').clusters) :
    (c.schedule st').order = (c.schedule st).order := by
  apply schedule_congr
  intro s hs
  unfold NonceTable.get
  rw [hfind s (named_subset_of_mem_clusters hc hs)]

section Clusters

variable (h : b.Splits D) (hfind : ∀ s ∈ (b.part D).named, st'.find? s = st.find? s)
include h hfind

/-- The clusters of the part are those clusters of the batch that lie in it. -/
theorem Splits.clusters_prune_part :
    ((b.part D).prune st').clusters =
      (b.prune st).clusters.filter fun c => c.all (Transaction.mainIn D) := by
  have hsplits : (b.prune st).Splits D := h.of_senders_subset fun _ => exists_of_mem_prune
  rw [h.prune_part hfind]
  apply clusters_filter
  intro tx htx tx' htx' s hs hs'
  exact hsplits.mainIn_eq htx htx' hs hs'

/-- Of every cluster, the plan of the part has what the plan of the whole batch has of the part, in
the same order.  If the cluster lies outside of the part, neither has a transaction of it. -/
theorem Splits.filter_mem_mergedPlan_part (seed : UInt64) (hc : c ∈ (b.prune st).clusters) :
    ((b.mergedPlan seed st).transactions.filter (Transaction.mainIn D)).filter (· ∈ c) =
      ((b.part D).mergedPlan seed st').transactions.filter (· ∈ c) := by
  have hsplits : (b.prune st).Splits D := h.of_senders_subset fun _ => exists_of_mem_prune
  by_cases hall : c.all (Transaction.mainIn D)
  · have hpart : c ∈ ((b.part D).prune st').clusters := by
      rw [h.clusters_prune_part hfind]
      exact List.mem_filter.2 ⟨hc, hall⟩
    have hin : (b.mergedPlan seed st).transactions.filter
          (fun tx => decide (tx ∈ c) && tx.mainIn D) =
        (b.mergedPlan seed st).transactions.filter (· ∈ c) := by
      apply List.filter_congr
      intro tx _
      rw [Bool.and_eq_left_iff_imp, decide_eq_true_iff]
      exact List.all_eq_true.1 hall tx
    rw [List.filter_filter, hin, filter_mem_mergedPlan seed hc, filter_mem_mergedPlan seed hpart,
      schedule_part hfind hpart]
  · have hnone {l : Batch} (hl : ∀ tx ∈ l, tx.mainIn D) : l.filter (· ∈ c) = [] := by
      rw [List.filter_eq_nil_iff]
      intro tx htx hmem
      exact hsplits.not_mainIn_of_mem_clusters hc hall (of_decide_eq_true hmem) (hl tx htx)
    rw [hnone, hnone]
    · intro tx htx
      have hmem := (settles_mergedPlan (b.part D) seed st').subset htx
      rw [h.prune_part hfind] at hmem
      exact (List.mem_filter.1 hmem).2
    · intro tx htx
      exact (List.mem_filter.1 htx).2

end Clusters

end Batch

/-! ## The plan of the part -/

/-- Orders with the same transactions of every cluster have the same transactions. -/
theorem perm_of_filter_mem {order order' : Batch} {clusters : List Batch}
    (horder : ∀ tx ∈ order, ∃ c ∈ clusters, tx ∈ c)
    (horder' : ∀ tx ∈ order', ∃ c ∈ clusters, tx ∈ c)
    (h : ∀ c ∈ clusters, order.filter (· ∈ c) = order'.filter (· ∈ c)) : order.Perm order' := by
  rw [List.perm_iff_count]
  intro tx
  by_cases hc : ∃ c ∈ clusters, tx ∈ c
  · rcases hc with ⟨c, hc, htx⟩
    have hcount (l : Batch) : (l.filter (· ∈ c)).count tx = l.count tx :=
      List.count_filter (decide_eq_true htx)
    rw [← hcount order, ← hcount order', h c hc]
  · rw [List.count_eq_zero.2 fun hmem => hc (horder tx hmem),
      List.count_eq_zero.2 fun hmem => hc (horder' tx hmem)]

/-- The accounts of the part have the same nonces in both. -/
theorem find?_givenNonces_part [DecidablePred (· ∈ D)] (provider : Address → Nonce) (s : Address)
    (hs : s ∈ (b.part D).named) :
    ((b.part D).givenNonces provider).find? s = (b.givenNonces provider).find? s := by
  rcases Batch.mem_named.1 hs with ⟨tx, htx, hsender⟩
  have hnamed : s ∈ b.named := Batch.mem_named.2 ⟨tx, (List.mem_filter.1 htx).1, hsender⟩
  unfold Batch.givenNonces
  rw [find?_startingNonces _ _ hs, find?_startingNonces _ _ hnamed]

/-- Transactions that share no account with a part of a batch do not interfere with it: planned
alone, the part has the transactions that the plan of the whole batch has of it, with the same
authorizations.  It falls into the clusters of the whole batch that lie in it, and transactions of
one cluster are in the same order in both plans. -/
theorem plan_of_part (s : Settings) (b : Batch) (D : Set Address) [DecidablePred (· ∈ D)]
    (h : b.Splits D) (provider : Address → Nonce) (seed : UInt64) :
    ((s.planWith b provider seed).transactions.filter (Transaction.mainIn D)).Perm
        (s.planWith (b.part D) provider seed).transactions ∧
      (b.part D).plannedClusters provider =
        (b.plannedClusters provider).filter (fun c => c.all (Transaction.mainIn D)) ∧
      ∀ c ∈ b.plannedClusters provider,
        ((s.planWith b provider seed).transactions.filter (Transaction.mainIn D)).filter (· ∈ c) =
          (s.planWith (b.part D) provider seed).transactions.filter (· ∈ c) := by
  rw [planWith_eq, planWith_eq]
  have hfind := find?_givenNonces_part (b := b) (D := D) provider
  have hclusters := h.clusters_prune_part hfind
  have hfilter (c : Batch) (hc : c ∈ b.plannedClusters provider) :=
    h.filter_mem_mergedPlan_part hfind seed hc
  refine ⟨perm_of_filter_mem ?_ ?_ hfilter, hclusters, hfilter⟩
  · intro tx htx
    exact Batch.exists_mem_clusters ((settles_mergedPlan b seed _).subset (List.mem_filter.1 htx).1)
  · intro tx htx
    rcases Batch.exists_mem_clusters ((settles_mergedPlan _ seed _).subset htx) with ⟨c, hc, hmem⟩
    rw [hclusters] at hc
    exact ⟨c, (List.mem_filter.1 hc).1, hmem⟩

/-- The tangled batch behind a transaction of two other accounts. -/
def besideTangled : Batch := ⟨⟨.ofNat 20 4, 0⟩, [⟨.ofNat 20 5, 0⟩]⟩ :: tangled

theorem plan_of_part_tangled :
    besideTangled.Splits tangled.named ∧
      ((Settings.planWith {} besideTangled pastTheGap 7).transactions.filter
          (Transaction.mainIn tangled.named)).Perm
        (Settings.planWith {} (besideTangled.part tangled.named) pastTheGap 7).transactions ∧
      (besideTangled.part tangled.named).plannedClusters pastTheGap =
        (besideTangled.plannedClusters pastTheGap).filter
          (fun c => c.all (Transaction.mainIn tangled.named)) ∧
      ∀ c ∈ besideTangled.plannedClusters pastTheGap,
        ((Settings.planWith {} besideTangled pastTheGap 7).transactions.filter
            (Transaction.mainIn tangled.named)).filter (· ∈ c) =
          (Settings.planWith {} (besideTangled.part tangled.named) pastTheGap 7).transactions.filter
            (· ∈ c) :=
  ⟨by decide, plan_of_part {} besideTangled tangled.named (by decide) pastTheGap 7⟩

end BatchOrder
