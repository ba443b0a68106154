import Mathlib.Logic.Equiv.Basic
import BatchOrder.Proofs.Independence

/-!
# Plans do not look at addresses

Addresses are compared and hashed in every stage, but what a stage makes of a batch depends only on
which of them are equal.  So every stage commutes with a renaming that keeps accounts apart: repeats
stay repeats, runs of nonces stay runs, chains of transactions join the renamed accounts and no
others, and a merge only looks at lengths.

Main results:

- Theorem `prune_rename`: pruning commutes with renaming.
- Theorem `clusters_rename`: so does the division into clusters.
- Theorem `plan_rename`: the plan of the renamed batch is the renamed plan, with the same report.
-/

namespace BatchOrder

variable {f : Address → Address} {b : Batch} {st st' : NonceTable}

/-! ## Pruning -/

/-- Dropping hopeless authorizations commutes with renaming. -/
theorem Transaction.satisfiable_rename (hf : Function.Injective f) (tx : Transaction) :
    (tx.rename f).satisfiable = tx.satisfiable.rename f := by
  have hdefeats (a : Action) : (tx.rename f).defeats (a.rename f) = tx.defeats a :=
    congrArg (· && decide (a.nonce ≤ tx.main.nonce)) (decide_eq_decide.2 hf.eq_iff)
  have hkeys : ∀ a ∈ tx.auth.filter (fun a => !tx.defeats a),
      ∀ k ∈ tx.auth.filter (fun a => !tx.defeats a),
        id (a.rename f) = id (k.rename f) ↔ id a = id k :=
    fun _ _ _ _ => (Action.rename_injective hf).eq_iff
  have hauth : keepFirst id ((tx.auth.map (Action.rename f)).filter
        fun a => !(tx.rename f).defeats a) =
      (keepFirst id (tx.auth.filter fun a => !tx.defeats a)).map (Action.rename f) := by
    rw [List.filter_map, ← keepFirst_map hkeys]
    simp only [Function.comp_def, hdefeats]
  exact congrArg (Transaction.mk (tx.main.rename f)) hauth

namespace Batch

/-- The first two passes commute with renaming. -/
theorem candidates_rename (hf : Function.Injective f) (b : Batch) :
    (b.rename f).candidates = b.candidates.rename f := by
  have hdistinct : (b.rename f).distinct = b.distinct.rename f :=
    keepFirst_map fun _ _ _ _ => (Action.rename_injective hf).eq_iff
  rw [candidates, hdistinct, candidates, satisfiable, satisfiable, rename, rename, List.map_map,
    List.map_map]
  apply List.map_congr_left
  intro tx _
  exact tx.satisfiable_rename hf

/-- Keeping what a condition holds for commutes with renaming, if the condition says the same of
renamed actions. -/
theorem keeping_rename {r r' : Action → Bool} (h : ∀ a ∈ b.actions, r' (a.rename f) = r a) :
    (b.rename f).keeping r' = (b.keeping r).rename f := by
  have hcongr : b.keeping (fun a => r' (a.rename f)) = b.keeping r := keeping_congr h
  rw [← hcongr]
  unfold keeping rename
  rw [List.filter_map, List.map_map, List.map_map]
  apply List.map_congr_left
  intro tx _
  exact congrArg (Transaction.mk (tx.main.rename f)) (List.filter_map ..)

/-- Pruning commutes with renaming if the entries of the accounts of the batch correspond. -/
theorem prune_rename (hf : Function.Injective f)
    (hfind : ∀ s ∈ b.named, st'.find? (f s) = st.find? s) :
    (b.rename f).prune st' = (b.prune st).rename f := by
  rw [prune_eq_keeping, prune_eq_keeping, candidates_rename hf]
  apply keeping_rename
  intro a ha
  have hentry : st'.find? (a.rename f).sender = st.find? a.sender :=
    hfind _ (named_candidates_subset (sender_mem_named ha))
  have hactions (n : Nonce) : ⟨f a.sender, n⟩ ∈ (b.candidates.rename f).actions ↔
      ⟨a.sender, n⟩ ∈ b.candidates.actions := by
    rw [actions_rename]
    exact List.mem_map_of_injective (Action.rename_injective hf) (a := ⟨a.sender, n⟩)
  exact reaches_congr (Action.nonce_rename f a) hentry hactions

/-! ## Clusters -/

/-- Transactions join renamed accounts exactly if they joined them before. -/
theorem joined_rename_iff (hf : Function.Injective f) {s t : Address} :
    (b.rename f).Joined (f s) (f t) ↔ b.Joined s t := by
  constructor
  · intro hst
    have hback {t' : Address} (h : (b.rename f).Joined (f s) t') :
        ∃ t, f t = t' ∧ b.Joined s t := by
      induction h with
      | refl => exact ⟨s, rfl, .refl⟩
      | @tail x y _ hstep ih =>
          rcases ih with ⟨x₀, rfl, hpath⟩
          rcases hstep with ⟨tx', htx', hx, hy⟩
          rcases List.mem_map.1 htx' with ⟨tx, htx, rfl⟩
          rw [Transaction.senders_rename] at hx hy
          rcases List.mem_map.1 hy with ⟨y₀, hy₀, rfl⟩
          have hx₀ : x₀ ∈ tx.senders := (List.mem_map_of_injective hf).1 hx
          exact ⟨y₀, rfl, hpath.tail ⟨tx, htx, hx₀, hy₀⟩⟩
    rcases hback hst with ⟨t', ht, hpath⟩
    rwa [← hf ht]
  · intro hst
    have hstep (x y : Address) (h : b.NamesBoth x y) : (b.rename f).NamesBoth (f x) (f y) := by
      rcases h with ⟨tx, htx, hx, hy⟩
      refine ⟨tx.rename f, List.mem_map_of_mem htx, ?_⟩
      rw [Transaction.senders_rename]
      exact ⟨List.mem_map_of_mem hx, List.mem_map_of_mem hy⟩
    exact Relation.ReflTransGen.lift f hstep _ _ hst

/-- The graph of the renamed batch joins the renamed accounts and no others. -/
theorem clusters_rename (hf : Function.Injective f) (b : Batch) :
    (b.rename f).clusters = b.clusters.map (Batch.rename f) := by
  rw [clusters_eq, clusters_eq]
  apply classes_map
  intro tx htx tx' _
  have htx' : tx.rename f ∈ b.rename f := List.mem_map_of_mem htx
  rw [LinkGraph.components_ofBatch_eq_iff (mains_mem_named htx'),
    LinkGraph.components_ofBatch_eq_iff (mains_mem_named htx)]
  exact joined_rename_iff hf

end Batch

/-! ## Plans -/

/-- The orders of the clusters are the renamed orders. -/
theorem orders_rename (hf : Function.Injective f)
    (hfind : ∀ s ∈ b.named, st'.find? (f s) = st.find? s) :
    (b.rename f).orders st' = (b.orders st).map (Batch.rename f) := by
  unfold Batch.orders
  rw [Batch.prune_rename hf hfind, Batch.clusters_rename hf, List.map_map, List.map_map]
  apply List.map_congr_left
  intro c hc
  apply (schedule_rename hf _).1
  intro s hs
  unfold NonceTable.get
  rw [hfind s (named_subset_of_mem_clusters hc hs)]

/-- A plan of the renamed batch is the renamed plan if the entries correspond. -/
theorem mergedPlan_rename (hf : Function.Injective f)
    (hfind : ∀ s ∈ b.named, st'.find? (f s) = st.find? s) (seed : UInt64) :
    (b.rename f).mergedPlan seed st' = (b.mergedPlan seed st).rename f := by
  unfold Batch.mergedPlan Plan.rename
  have hmerge : shuffleMerge ((b.rename f).orders st') seed =
      Batch.rename f (shuffleMerge (b.orders st) seed) := by
    rw [orders_rename hf hfind]
    exact shuffleMerge_map _ _ seed
  have hlength (c : Batch) : (c.rename f).length = c.length := List.length_map ..
  rw [hmerge, Batch.prune_rename hf hfind, Batch.clusters_rename hf, List.map_map]
  simp only [hlength, List.length_map, Function.comp_def]

/-- The entries of renamed accounts correspond if the provider gives renamed accounts the same
nonces. -/
theorem find?_givenNonces_rename {provider provider' : Address → Nonce}
    (hprovider : ∀ a ∈ b.senders, provider' (f a) = provider a) (s : Address) (hs : s ∈ b.named) :
    ((b.rename f).givenNonces provider').find? (f s) = (b.givenNonces provider).find? s := by
  have hnamed : f s ∈ (b.rename f).senders := by
    rw [Batch.senders_rename]
    exact List.mem_map_of_mem hs
  unfold Batch.givenNonces
  rw [find?_startingNonces _ _ hnamed, find?_startingNonces _ _ hs, hprovider s hs]

/-- Plans do not depend on what the addresses are: if every account of a batch is renamed, and the
provider gives the renamed account the same nonce, the plan is the same with every account renamed,
and the report is the same. -/
theorem plan_rename (s : Settings) (b : Batch) (provider provider' : Address → Nonce)
    (seed : UInt64) (f : Address → Address) (hf : Function.Injective f)
    (hprovider : ∀ a ∈ b.senders, provider' (f a) = provider a) :
    s.planWith (b.rename f) provider' seed = (s.planWith b provider seed).rename f := by
  rw [planWith_eq, planWith_eq]
  exact mergedPlan_rename hf (find?_givenNonces_rename hprovider) seed

/-- Two accounts of the tangled batch trade places. -/
def trade : Equiv.Perm Address := Equiv.swap (.ofNat 20 1) (.ofNat 20 3)

theorem trade_trade (a : Address) : trade (trade a) = a :=
  Equiv.swap_apply_self ..

theorem plan_rename_tangled :
    Function.Injective trade ∧
      (∀ a ∈ tangled.senders, pastTheGap (trade (trade a)) = pastTheGap a) ∧
      Settings.planWith {} (tangled.rename trade) (fun a => pastTheGap (trade a)) 7 =
        (Settings.planWith {} tangled pastTheGap 7).rename trade :=
  ⟨trade.injective, fun a _ => congrArg pastTheGap (trade_trade a),
    plan_rename {} tangled pastTheGap (fun a => pastTheGap (trade a)) 7 trade trade.injective
      fun a _ => congrArg pastTheGap (trade_trade a)⟩

end BatchOrder
