import BatchOrder.Proofs.Planning

/-!
# What a plan does not depend on

The settings choose between two ways of scheduling the clusters of a batch, and in both of them
every cluster has the order that it has alone.  The seed chooses an interleaving of these orders.
So no plan depends on the settings, and plans with different seeds differ only in where the clusters
meet: they have the same transactions, those of every cluster in the same order, and as clusters
share no account, they end in the same nonces.

Main results:

- Theorem `planWith_eq`: a plan merges the orders that the clusters have alone.
- Theorem `plan_independent_of_settings`: plans under different settings are equal.
- Theorem `filter_mem_of_interleaves`: every interleaving keeps the orders of the clusters.
- Theorem `seed_chooses_merge`: plans with different seeds differ only in the merge.
-/

namespace BatchOrder

open NonceTable

/-! ## Orders and their merge -/

namespace Batch

/-- The clusters that are left of a batch after pruning with the nonces of a provider. -/
def plannedClusters (b : Batch) (provider : Address → Nonce) : List Batch :=
  (b.prune (b.givenNonces provider)).clusters

/-- The orders of the clusters that are left after pruning, each scheduled alone. -/
def orders (b : Batch) (st : NonceTable) : List Batch :=
  (b.prune st).clusters.map fun c => (c.schedule st).order

/-- The plan that merges the orders of the clusters. -/
def mergedPlan (b : Batch) (seed : UInt64) (st : NonceTable) : Plan where
  transactions := shuffleMerge (b.orders st) seed
  report :=
    { input := b.length
      cleaned := (b.prune st).length
      clusters := (b.prune st).clusters.length
      largest := ((b.prune st).clusters.map List.length).foldl max 0
      scheduled := (shuffleMerge (b.orders st) seed).length }

theorem transactions_mergedPlan (b : Batch) (seed : UInt64) (st : NonceTable) :
    (b.mergedPlan seed st).transactions = shuffleMerge (b.orders st) seed := by
  simp only [mergedPlan]

/-- A plan counts the transactions of the batch. -/
theorem input_mergedPlan (b : Batch) (seed : UInt64) (st : NonceTable) :
    (b.mergedPlan seed st).report.input = b.length := by
  simp only [mergedPlan]

/-- A plan counts the transactions that pruning leaves. -/
theorem cleaned_mergedPlan (b : Batch) (seed : UInt64) (st : NonceTable) :
    (b.mergedPlan seed st).report.cleaned = (b.prune st).length := by
  simp only [mergedPlan]

/-- A plan counts the transactions that it schedules. -/
theorem scheduled_mergedPlan (b : Batch) (seed : UInt64) (st : NonceTable) :
    (b.mergedPlan seed st).report.scheduled = (b.mergedPlan seed st).transactions.length := by
  simp only [mergedPlan]

end Batch

/-- Whatever the settings, a plan merges the orders that the clusters have alone. -/
theorem value_planFrom (s : Settings) (b : Batch) (seed : UInt64) (st : NonceTable) :
    (s.planFrom b seed st).value = b.mergedPlan seed st := by
  have horders : (s.scheduleClusters st (b.prune st).clusters).value = b.orders st :=
    value_scheduleClusters s (separate_clusters_prune b st) st
  unfold Batch.mergedPlan
  rw [← horders]
  rfl

/-- A plan with the nonces of a provider merges the orders that the clusters have alone. -/
theorem planWith_eq (s : Settings) (b : Batch) (provider : Address → Nonce) (seed : UInt64) :
    s.planWith b provider seed = b.mergedPlan seed (b.givenNonces provider) :=
  value_planFrom s b seed _

/-- Plans do not depend on the settings: scheduled apart, from their own parts of the nonces at the
start, the clusters have the same orders as scheduled in turn. -/
theorem plan_independent_of_settings (s s' : Settings) (b : Batch) (provider : Address → Nonce)
    (seed : UInt64) :
    s.planWith b provider seed = s'.planWith b provider seed ∧
      ∀ st : NonceTable, (scheduleApart st (b.prune st).clusters).value =
        (scheduleInTurn st (b.prune st).clusters).value.1 := by
  constructor
  · rw [planWith_eq, planWith_eq]
  · intro st
    rw [value_scheduleApart, value_scheduleInTurn (separate_clusters_prune b st)]

/-! ## The order of a cluster in the merge -/

variable {b c : Batch} {st : NonceTable}

/-- The transactions of a plan interleave the orders of the clusters. -/
theorem interleaves_mergedPlan (b : Batch) (seed : UInt64) (st : NonceTable) :
    Interleaves (b.orders st) (b.mergedPlan seed st).transactions := by
  rw [Batch.transactions_mergedPlan]
  exact interleaves_shuffleMerge _ seed

/-- Every order settles its cluster. -/
theorem settles_orders (b : Batch) (st : NonceTable) :
    List.Forall₂ (Settles st) (b.prune st).clusters (b.orders st) :=
  settles_map_schedule (separate_clusters_prune b st) st

/-- A plan settles the pruned batch. -/
theorem settles_mergedPlan (b : Batch) (seed : UInt64) (st : NonceTable) :
    Settles st (b.prune st) (b.mergedPlan seed st).transactions :=
  settles_of_interleaves (settles_orders b st) (interleaves_mergedPlan b seed st)

/-- However the orders are interleaved, the transactions of a cluster are in the order that the
cluster has alone.  The transactions of the other orders belong to clusters that share no account
with it. -/
theorem filter_mem_of_interleaves {merged : Batch} (h : Interleaves (b.orders st) merged)
    (hc : c ∈ (b.prune st).clusters) : merged.filter (· ∈ c) = (c.schedule st).order := by
  rcases List.getElem?_of_mem hc with ⟨i, hi⟩
  have horder : (b.orders st)[i]? = some (c.schedule st).order := by
    unfold Batch.orders
    rw [List.getElem?_map, hi, Option.map_some]
  apply h.filter_eq horder
  · intro tx htx
    rcases getElem?_of_forall₂ (settles_orders b st) horder with ⟨c', hc', hsettled⟩
    rcases Option.some.inj (hi.symm.trans hc') with rfl
    exact decide_eq_true (hsettled.subset htx)
  · intro j other hij hj tx htx hmem
    rcases getElem?_of_forall₂ (settles_orders b st) hj with ⟨d, hd, hsettled⟩
    have hnamed : tx.main.sender ∈ d.named := mains_mem_named (hsettled.subset htx)
    exact Batch.apart_clusters hij hi hd _ (mains_mem_named (of_decide_eq_true hmem)) hnamed

/-- In a plan the transactions of a cluster are in the order that the cluster has alone. -/
theorem filter_mem_mergedPlan (seed : UInt64) (hc : c ∈ (b.prune st).clusters) :
    (b.mergedPlan seed st).transactions.filter (· ∈ c) = (c.schedule st).order :=
  filter_mem_of_interleaves (interleaves_mergedPlan b seed st) hc

/-! ## Different seeds -/

/-- Plans with different seeds have the same transactions. -/
theorem perm_mergedPlan (b : Batch) (seed seed' : UInt64) (st : NonceTable) :
    (b.mergedPlan seed st).transactions.Perm (b.mergedPlan seed' st).transactions :=
  (interleaves_mergedPlan b seed st).perm.trans (interleaves_mergedPlan b seed' st).perm.symm

/-- Two merges of the same orders end in the same nonces, from any nonces that are those of the plan
for the accounts of the batch. -/
theorem exists_replay?_mergedPlan (seed seed' : UInt64) {u : NonceTable}
    (hagree : AgreesOn b.named st u) :
    ∃ final, u.replay? (b.mergedPlan seed st).transactions = some final ∧
      u.replay? (b.mergedPlan seed' st).transactions = some final := by
  have hsettles := settles_orders b st
  apply exists_replay?_of_interleaves (interleaves_mergedPlan b seed st)
    (interleaves_mergedPlan b seed' st) fun _ _ hij => Batch.accountsOf_apart hij
  · intro i order hi a ha
    exact mem_accountsOf_of_settles hsettles hi ha
  · intro i order hi
    rcases getElem?_of_forall₂ hsettles hi with ⟨c, hc, hsettled⟩
    rcases hsettled.exhausts with ⟨v, hv, _⟩
    have hmains (tx : Transaction) (htx : tx ∈ order) : tx.main.sender ∈ b.named :=
      named_subset_of_mem_clusters (List.mem_of_getElem? hc)
        (mains_mem_named (hsettled.subset htx))
    rcases hagree.replay? hmains hv with ⟨v', hv', _⟩
    exact ⟨v', hv'⟩
  · intro order horder a ha
    rcases List.getElem?_of_mem horder with ⟨i, hi⟩
    rcases getElem?_of_forall₂ hsettles hi with ⟨c, hc, hsettled⟩
    exact (separate_clusters_prune b st).lt_last c (List.mem_of_getElem? hc) a
      (Batch.actions_subset hsettled.subset ha)

/-- The seed chooses the merge and nothing else: plans with different seeds have equal reports, the
same transactions, those of every cluster in the same order, and the same nonces in the end. -/
theorem seed_chooses_merge (s : Settings) (b : Batch) (provider : Address → Nonce)
    (seed seed' : UInt64) (st : NonceTable) (hst : ∀ a ∈ b.senders, st.get a = provider a) :
    (s.planWith b provider seed).report = (s.planWith b provider seed').report ∧
      (s.planWith b provider seed).transactions.Perm (s.planWith b provider seed').transactions ∧
      (∃ final, st.replay? (s.planWith b provider seed).transactions = some final ∧
        st.replay? (s.planWith b provider seed').transactions = some final) ∧
      ∀ c ∈ b.plannedClusters provider,
        (s.planWith b provider seed).transactions.filter (· ∈ c) =
          (s.planWith b provider seed').transactions.filter (· ∈ c) := by
  rw [planWith_eq, planWith_eq]
  have hperm := perm_mergedPlan b seed seed' (b.givenNonces provider)
  refine ⟨?_, hperm, exists_replay?_mergedPlan seed seed' (agreesOn_givenNonces hst), ?_⟩
  · have hlength := hperm.length_eq
    unfold Batch.mergedPlan at hlength ⊢
    dsimp only at hlength ⊢
    rw [hlength]
  · intro c hc
    rw [filter_mem_mergedPlan seed hc, filter_mem_mergedPlan seed' hc]

theorem seed_chooses_merge_tangled :
    (∀ a ∈ tangled.senders, (NonceTable.ofList [(.ofNat 20 3, 5)]).get a = pastTheGap a) ∧
      (Settings.planWith {} tangled pastTheGap 7).report =
        (Settings.planWith {} tangled pastTheGap 8).report ∧
      (Settings.planWith {} tangled pastTheGap 7).transactions.Perm
        (Settings.planWith {} tangled pastTheGap 8).transactions ∧
      (∃ final, (NonceTable.ofList [(.ofNat 20 3, 5)]).replay?
          (Settings.planWith {} tangled pastTheGap 7).transactions = some final ∧
        (NonceTable.ofList [(.ofNat 20 3, 5)]).replay?
          (Settings.planWith {} tangled pastTheGap 8).transactions = some final) ∧
      ∀ c ∈ tangled.plannedClusters pastTheGap,
        (Settings.planWith {} tangled pastTheGap 7).transactions.filter (· ∈ c) =
          (Settings.planWith {} tangled pastTheGap 8).transactions.filter (· ∈ c) :=
  ⟨fun a _ => get_pastTheGap a,
    seed_chooses_merge {} tangled pastTheGap 7 8 _ fun a _ => get_pastTheGap a⟩

end BatchOrder
