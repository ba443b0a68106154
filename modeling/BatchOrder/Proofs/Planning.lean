import Mathlib.Data.List.Forall2
import BatchOrder.Planning
import BatchOrder.Proofs.Cluster
import BatchOrder.Proofs.Merge
import BatchOrder.Proofs.Pruning
import BatchOrder.Proofs.Schedule.Greedy
import BatchOrder.Proofs.Schedule.Renaming

/-!
# A plan can be replayed and leaves nothing over

An order settles a batch if it replays transactions of the batch to nonces at which no transaction
of the batch is next in turn.  The schedule of a cluster settles it.  As clusters share no account,
it does not matter from which nonces of other accounts a cluster is scheduled, nor how the orders of
the clusters are merged; so a plan settles the pruned batch, and what pruning dropped cannot run
either.

Main results:

- Theorem `settles_schedule`: a schedule settles its cluster.
- Theorem `value_scheduleClusters`: whatever the settings, every cluster has the order that it has
  alone.
- Theorem `events_scheduleInTurn`: clusters scheduled in turn are reported one after another.
- Theorem `settles_planFrom`: a plan settles the pruned batch.
- Theorem `plan_replays`: a plan can be replayed, and its main actions are in order.
- Theorem `plan_is_maximal`: after a plan no transaction of the batch is next in turn.
-/

namespace BatchOrder

open NonceTable

/-! ## Looking up -/

/-- A table that the answers of a provider are put into has them as entries. -/
theorem find?_foldl_set (provider : Address → Nonce) (as : List Address) (st : NonceTable)
    (s : Address) :
    ((as.map fun a => (a, provider a)).foldl (fun st e => st.set e.1 e.2) st).find? s =
      if s ∈ as then some (provider s) else st.find? s := by
  induction as generalizing st with
  | nil => simp
  | cons a as ih =>
      rw [List.map_cons, List.foldl_cons, ih, find?_set]
      by_cases has : a = s
      · simp [has]
      · simp [has, Ne.symm has]

/-- Looking up is asking the provider for every account that the batch names. -/
theorem startingNonces_eq (b : Batch) (provider : Address → Nonce) :
    Id.run (b.startingNonces fun a => pure (provider a)) =
      .ofList (b.namedAccounts.map fun a => (a, provider a)) := by
  unfold Batch.startingNonces
  simp

/-- The nonces looked up are those of the provider, for every account that the batch names. -/
theorem find?_startingNonces (b : Batch) (provider : Address → Nonce) {s : Address}
    (hs : s ∈ b.senders) :
    (Id.run (b.startingNonces fun a => pure (provider a))).find? s = some (provider s) := by
  have hnamed : s ∈ b.namedAccounts := mem_keepFirst_id.2 hs
  rw [startingNonces_eq, NonceTable.ofList, find?_foldl_set, if_pos hnamed]

/-- The nonces that a provider gives to the accounts of a batch. -/
def Batch.givenNonces (b : Batch) (provider : Address → Nonce) : NonceTable :=
  Id.run (b.startingNonces fun a => pure (provider a))

/-- Providers that give the accounts of a batch the same nonces are the same to it. -/
theorem Batch.givenNonces_congr {b : Batch} {provider provider' : Address → Nonce}
    (h : ∀ a ∈ b.senders, provider a = provider' a) :
    b.givenNonces provider = b.givenNonces provider' := by
  have hentries : (b.namedAccounts.map fun a => (a, provider a)) =
      b.namedAccounts.map fun a => (a, provider' a) := by
    apply List.map_congr_left
    intro a ha
    rw [h a (mem_keepFirst_id.1 ha)]
  rw [givenNonces, startingNonces_eq, hentries, ← startingNonces_eq, givenNonces]

/-- The nonces of a provider agree with every table that holds its answers. -/
theorem agreesOn_givenNonces {b : Batch} {provider : Address → Nonce} {st : NonceTable}
    (hst : ∀ a ∈ b.senders, st.get a = provider a) :
    AgreesOn b.named (b.givenNonces provider) st := by
  intro a ha
  have hfind : (b.givenNonces provider).find? a = some (provider a) :=
    find?_startingNonces b provider ha
  rw [hst a ha, NonceTable.get, hfind]
  rfl

/-! ## Settling a cluster -/

/-- An order runs transactions of a batch, one after another, until none is next in turn. -/
structure Settles (st : NonceTable) (b order : Batch) : Prop where
  subset : order ⊆ b
  exhausts : ∃ final, st.replay? order = some final ∧
    ∀ tx ∈ b, final.get tx.main.sender ≠ tx.main.nonce

/-- No main action runs twice. -/
theorem Settles.nodup_mains {st : NonceTable} {b order : Batch} (h : Settles st b order)
    (hlast : ∀ tx ∈ b, tx.main.nonce < Nonce.last) : order.mains.Nodup := by
  rcases h.exhausts with ⟨final, hreplay, _⟩
  exact nodup_mains_of_replay? hreplay fun tx htx => hlast tx (h.subset htx)

/-- The schedule of a cluster settles it: what it has taken is passed, and what it has left over is
not next in turn. -/
theorem settles_schedule {c : Batch} (hlast : ∀ a ∈ c.actions, a.nonce < Nonce.last)
    (st : NonceTable) :
    Settles st c (c.schedule st).order ∧
      st.replay? (c.schedule st).order = some (c.schedule st).nonces := by
  rcases Progress.reached_finish (b := c) (p := .start c st) .refl with ⟨hreached, hnone⟩
  rcases Progress.faithful_of_reached hlast hreached with ⟨hf, _⟩
  have hmains (tx : Transaction) (hmem : tx ∈ c) : tx.main.nonce < Nonce.last :=
    hlast _ (Batch.main_mem_actions hmem)
  rw [Batch.schedule_eq]
  refine ⟨⟨fun tx htx => ?_, _, hf.replays, fun tx htx hturn => ?_⟩, hf.replays⟩
  · rcases Progress.mem_pick.1 htx with ⟨i, _, hi⟩
    exact List.mem_of_getElem? hi
  · rcases List.getElem?_of_mem htx with ⟨i, hi⟩
    by_cases htaken : i ∈ ((Progress.start c st).finish c.toArray).scheduled.toList
    · have hpassed := lt_get_of_mem_replay? hf.replays (Progress.mem_pick.2 ⟨i, htaken, hi⟩)
        (hmains tx htx)
      rw [hturn] at hpassed
      exact UInt64.lt_irrefl _ hpassed
    · have hidle := (hf.step?_eq_none_iff hmains).1 hnone i tx ⟨hi, htaken⟩
      exact of_decide_eq_false hidle hturn

/-! ## Scheduling all clusters -/

/-- What scheduling needs of the clusters of a batch. -/
structure Separate (clusters : List Batch) : Prop where
  apart : clusters.Pairwise Batch.Apart
  lt_last : ∀ c ∈ clusters, ∀ a ∈ c.actions, a.nonce < Nonce.last

theorem Separate.tail {c : Batch} {rest : List Batch} (h : Separate (c :: rest)) :
    Separate rest where
  apart := (List.pairwise_cons.1 h.apart).2
  lt_last d hd := h.lt_last d (List.mem_cons_of_mem _ hd)

/-- The schedule of one cluster leaves the nonces of another. -/
theorem agreesOn_schedule {c d : Batch} (hlast : ∀ a ∈ c.actions, a.nonce < Nonce.last)
    (hapart : c.Apart d) (st : NonceTable) : AgreesOn d.named st (c.schedule st).nonces := by
  rcases settles_schedule hlast st with ⟨hsettles, hreplay⟩
  refine agreesOn_of_replay? hreplay fun a ha hnamed => ?_
  rcases List.mem_flatMap.1 ha with ⟨tx, htx, hmem⟩
  exact hapart _ (Batch.mem_named_of_mem_actions (hsettles.subset htx) hmem) hnamed

/-- A part of a table agrees with the whole on its accounts. -/
theorem agreesOn_restrictTo (st : NonceTable) (c : Batch) :
    AgreesOn c.named (st.restrictTo c.accounts) st := by
  intro s hs
  have hmem : s ∈ c.accounts := by
    unfold Batch.accounts
    rw [Std.ExtTreeSet.mem_ofList]
    exact List.contains_iff_mem.2 hs
  unfold NonceTable.get
  rw [find?_restrictTo, if_pos hmem]

/-- Scheduled one after another, all clusters have the orders that they have from the nonces at the
start. -/
theorem value_scheduleInTurn {clusters : List Batch} (h : Separate clusters) (st : NonceTable) :
    (scheduleInTurn st clusters).value.1 = clusters.map fun c => (c.schedule st).order := by
  induction clusters generalizing st with
  | nil => rfl
  | cons c rest ih =>
      have hhead : (scheduleInTurn st (c :: rest)).value.1 =
          (c.schedule st).order :: (scheduleInTurn (c.schedule st).nonces rest).value.1 := by
        rw [← Batch.value_scheduleLogged]
        rfl
      rw [hhead, ih h.tail, List.map_cons]
      apply congrArg (List.cons _)
      apply List.map_congr_left
      intro d hd
      have hapart := (List.pairwise_cons.1 h.apart).1 d hd
      exact schedule_congr (agreesOn_schedule (h.lt_last c List.mem_cons_self) hapart st)

/-- Clusters scheduled one after another are reported one after another. -/
theorem events_scheduleInTurn {clusters : List Batch} (h : Separate clusters) (st : NonceTable) :
    (scheduleInTurn st clusters).events =
      clusters.flatMap fun c => (c.scheduleLogged st).events := by
  induction clusters generalizing st with
  | nil => rfl
  | cons c rest ih =>
      have hhead : (scheduleInTurn st (c :: rest)).events = (c.scheduleLogged st).events ++
          ((scheduleInTurn (c.schedule st).nonces rest).events ++ []) := by
        rw [← Batch.value_scheduleLogged]
        rfl
      rw [hhead, List.append_nil, ih h.tail, List.flatMap_cons]
      apply congrArg ((c.scheduleLogged st).events ++ ·)
      apply List.flatMap_congr
      intro d hd
      have hapart := (List.pairwise_cons.1 h.apart).1 d hd
      have hagree := agreesOn_schedule (h.lt_last c List.mem_cons_self) hapart st
      rw [Batch.events_scheduleLogged, Batch.events_scheduleLogged, schedule_congr hagree]

/-- Scheduled each from its own part of the nonces, all clusters have the orders that they have from
the nonces at the start. -/
theorem value_scheduleApart (st : NonceTable) (clusters : List Batch) :
    (scheduleApart st clusters).value = clusters.map fun c => (c.schedule st).order := by
  unfold scheduleApart
  induction clusters with
  | nil => rfl
  | cons c rest ih =>
      rw [List.mapM_cons, List.map_cons, ← ih,
        ← schedule_congr (agreesOn_restrictTo st c).symm, ← Batch.value_scheduleLogged]
      rfl

/-- Whatever the settings, the clusters have the orders that they have from the nonces at the
start. -/
theorem value_scheduleClusters (s : Settings) {clusters : List Batch} (h : Separate clusters)
    (st : NonceTable) :
    (s.scheduleClusters st clusters).value = clusters.map fun c => (c.schedule st).order := by
  unfold Settings.scheduleClusters
  split
  · exact value_scheduleApart st clusters
  · exact value_scheduleInTurn h st

/-- Scheduled alone, every cluster is settled. -/
theorem settles_map_schedule {clusters : List Batch} (h : Separate clusters) (st : NonceTable) :
    List.Forall₂ (Settles st) clusters (clusters.map fun c => (c.schedule st).order) := by
  rw [List.forall₂_map_right_iff, List.forall₂_same]
  intro c hc
  exact (settles_schedule (h.lt_last c hc) st).1

/-- Whatever the settings, every cluster is settled. -/
theorem settles_scheduleClusters (s : Settings) {clusters : List Batch} (h : Separate clusters)
    (st : NonceTable) :
    List.Forall₂ (Settles st) clusters (s.scheduleClusters st clusters).value := by
  rw [value_scheduleClusters s h st]
  exact settles_map_schedule h st

/-! ## Plans -/

/-- Elements in corresponding places are related. -/
theorem getElem?_of_forall₂ {α β : Type} {r : α → β → Prop} {xs : List α} {ys : List β}
    (h : List.Forall₂ r xs ys) {i : Nat} {y : β} (hy : ys[i]? = some y) :
    ∃ x, xs[i]? = some x ∧ r x y := by
  induction h generalizing i with
  | nil => cases hy
  | @cons x y' xs ys hxy _ ih =>
      cases i with
      | zero =>
          rcases Option.some.inj hy with rfl
          exact ⟨x, rfl, hxy⟩
      | succ i => exact ih hy

/-- The accounts of the cluster at a position. -/
def Batch.accountsOf (b : Batch) (i : Nat) : Set Address :=
  {s | ∃ c, b.clusters[i]? = some c ∧ s ∈ c.named}

/-- Different clusters have different accounts. -/
theorem Batch.accountsOf_apart {b : Batch} {i j : Nat} (hij : i ≠ j) (s : Address)
    (hi : s ∈ b.accountsOf i) : s ∉ b.accountsOf j := by
  intro hj
  rcases hi with ⟨c, hc, hs⟩
  rcases hj with ⟨d, hd, hs'⟩
  exact Batch.apart_clusters hij hc hd s hs hs'

section Orders

variable {b order : Batch} {orders : List Batch} {st : NonceTable}

/-- An order that settles a cluster stays within its accounts. -/
theorem mem_accountsOf_of_settles (hsettles : List.Forall₂ (Settles st) b.clusters orders) {i : Nat}
    {o : Batch} (hi : orders[i]? = some o) {a : Action} (ha : a ∈ o.actions) :
    a.sender ∈ b.accountsOf i := by
  rcases getElem?_of_forall₂ hsettles hi with ⟨c, hc, hsettled⟩
  rcases List.mem_flatMap.1 ha with ⟨tx, htx, hmem⟩
  exact ⟨c, hc, Batch.mem_named_of_mem_actions (hsettled.subset htx) hmem⟩

/-- An order that settles a cluster can be replayed. -/
theorem exists_replay?_of_settles (hsettles : List.Forall₂ (Settles st) b.clusters orders)
    {i : Nat} {o : Batch} (hi : orders[i]? = some o) : ∃ u, st.replay? o = some u := by
  rcases getElem?_of_forall₂ hsettles hi with ⟨c, _, hsettled⟩
  rcases hsettled.exhausts with ⟨u, hu, _⟩
  exact ⟨u, hu⟩

/-- The orders of the clusters settle the whole batch, in whatever way they are interleaved. -/
theorem settles_of_interleaves (hsettles : List.Forall₂ (Settles st) b.clusters orders)
    (h : Interleaves orders order) : Settles st b order := by
  rcases replay?_of_interleaves h (fun _ _ hij => Batch.accountsOf_apart hij)
    (fun _ _ hi _ ha => mem_accountsOf_of_settles hsettles hi ha)
    (fun _ _ hi => exists_replay?_of_settles hsettles hi) with ⟨final, hfinal, hagree⟩
  refine ⟨fun tx htx => ?_, final, hfinal, fun tx htx => ?_⟩
  · rcases (h.mem_iff tx).1 htx with ⟨o, ho, hmem⟩
    rcases List.getElem?_of_mem ho with ⟨i, hi⟩
    rcases getElem?_of_forall₂ hsettles hi with ⟨c, hc, hsettled⟩
    exact Batch.mem_of_mem_clusters (List.mem_of_getElem? hc) (hsettled.subset hmem)
  · rcases Batch.exists_mem_clusters htx with ⟨c, hmem, hc⟩
    rcases List.getElem?_of_mem hmem with ⟨i, hi⟩
    have hlen : i < orders.length :=
      hsettles.length_eq ▸ (List.getElem?_eq_some_iff.1 hi).1
    have ho := List.getElem?_eq_getElem hlen
    rcases getElem?_of_forall₂ hsettles ho with ⟨c', hc', hsettled⟩
    rcases Option.some.inj (hi.symm.trans hc') with rfl
    rcases hsettled.exhausts with ⟨u, hu, hnone⟩
    rw [← hagree i _ u ho hu tx.main.sender ⟨c, hi, mains_mem_named hc⟩]
    exact hnone tx hc

end Orders

/-- The clusters of a batch without last nonces can be scheduled apart. -/
theorem separate_clusters {b : Batch} (hlast : ∀ a ∈ b.actions, a.nonce < Nonce.last) :
    Separate b.clusters where
  apart := by
    rw [List.pairwise_iff_getElem]
    intro i j hi hj hij
    exact Batch.apart_clusters (Nat.ne_of_lt hij) (List.getElem?_eq_getElem hi)
      (List.getElem?_eq_getElem hj)
  lt_last c hc a ha :=
    hlast a (Batch.actions_subset (fun _ htx => Batch.mem_of_mem_clusters hc htx) ha)

/-- The clusters of a batch that is pruned can be scheduled apart. -/
theorem separate_clusters_prune (b : Batch) (st : NonceTable) :
    Separate (b.prune st).clusters :=
  separate_clusters fun _ ha => lt_last_of_mem_prune ha

/-- The first two passes leave no account that the batch does not name. -/
theorem named_candidates_subset {b : Batch} : b.candidates.named ⊆ b.named := by
  intro s hs
  rcases Batch.mem_named.1 hs with ⟨tx, htx, hsender⟩
  rcases exists_of_mem_candidates htx with ⟨tx', htx', hsub⟩
  exact Batch.mem_named.2 ⟨tx', htx', hsub hsender⟩

/-- Pruning leaves no account that the batch does not name. -/
theorem named_prune_subset {b : Batch} {st : NonceTable} : (b.prune st).named ⊆ b.named := by
  intro s hs
  rcases Batch.mem_named.1 hs with ⟨tx, htx, hsender⟩
  rcases exists_of_mem_prune htx with ⟨tx', htx', hsub⟩
  exact Batch.mem_named.2 ⟨tx', htx', hsub hsender⟩

/-- The clusters that are scheduled name no account that the batch does not name. -/
theorem named_subset_of_mem_clusters {b c : Batch} {st : NonceTable}
    (hc : c ∈ (b.prune st).clusters) : c.named ⊆ b.named := by
  intro s hs
  rcases Batch.mem_named.1 hs with ⟨tx, htx, hsender⟩
  exact named_prune_subset
    (Batch.mem_named.2 ⟨tx, Batch.mem_of_mem_clusters hc htx, hsender⟩)

/-- A plan settles what is left of the batch after pruning, whatever the settings, the seed and the
nonces it starts from. -/
theorem settles_planFrom (s : Settings) (b : Batch) (seed : UInt64) (st : NonceTable) :
    Settles st (b.prune st) (s.planFrom b seed st).value.transactions :=
  settles_of_interleaves (settles_scheduleClusters s (separate_clusters_prune b st) st)
    (interleaves_shuffleMerge _ seed)

/-- After a plan no transaction of the whole batch is next in turn: one that was kept is settled, a
repeated one has the main action of one that was kept, and one that was dropped is out of reach. -/
theorem get_ne_of_planFrom (s : Settings) {b : Batch} (seed : UInt64) {st final : NonceTable}
    (hknown : ∀ a ∈ b.senders, (st.find? a).isSome)
    (hreplay : st.replay? (s.planFrom b seed st).value.transactions = some final)
    {tx : Transaction} (htx : tx ∈ b) (hlast : tx.main.nonce < Nonce.last) :
    final.get tx.main.sender ≠ tx.main.nonce := by
  rcases settles_planFrom s b seed st with ⟨hsubset, final', hreplay', hnone⟩
  rcases Option.some.inj (hreplay.symm.trans hreplay') with rfl
  by_cases hreach : reaches st (b.candidates.runEnds st) tx.main
  · rcases main_mem_prune htx hreach with ⟨tx', htx', hmain⟩
    rw [← hmain]
    exact hnone tx' htx'
  · have hsender : tx.main.sender ∈ b.senders := mains_mem_named htx
    exact get_ne_of_not_reaches htx (hknown _ hsender) hlast hreach
      (get_le_of_replay? hreplay _) (get_le_of_replay?_prune hsubset hreplay _)

/-! ## Plans from the nonces of a provider -/

/-- The plan for a batch with the nonces that a provider gives. -/
def Settings.planWith (s : Settings) (b : Batch) (provider : Address → Nonce) (seed : UInt64) :
    Plan :=
  (Id.run (s.plan b (fun a => pure (provider a)) seed)).value

/-- The order of execution of a batch is that of its plan under the usual settings. -/
theorem executionOrder_eq (b : Batch) (provider : Address → Nonce) (seed : UInt64) :
    Id.run (b.executionOrder (fun a => pure (provider a)) seed) =
      (Settings.planWith {} b provider seed).transactions := by
  unfold Batch.executionOrder Settings.planWith
  rfl

/-- The plan of a provider can be replayed from any nonces that are the provider's for the accounts
of the batch. -/
theorem exists_replay?_planWith (s : Settings) (b : Batch) (provider : Address → Nonce)
    (seed : UInt64) {st : NonceTable} (hst : ∀ a ∈ b.senders, st.get a = provider a) :
    ∃ final, st.replay? (s.planWith b provider seed).transactions = some final ∧
      (∀ tx ∈ (s.planWith b provider seed).transactions, tx.main.nonce < Nonce.last) ∧
      ∀ tx ∈ b, tx.main.nonce < Nonce.last → final.get tx.main.sender ≠ tx.main.nonce := by
  have hplan : s.planWith b provider seed =
      (s.planFrom b seed (b.givenNonces provider)).value := rfl
  have hknown (a : Address) (ha : a ∈ b.senders) :
      ((b.givenNonces provider).find? a).isSome := by
    rw [Batch.givenNonces, find?_startingNonces b provider ha, Option.isSome_some]
  rcases settles_planFrom s b seed (b.givenNonces provider) with ⟨hsubset, final, hreplay, _⟩
  obtain ⟨final', hreplay', hfinal⟩ := (agreesOn_givenNonces hst).replay?
    (fun tx htx => named_prune_subset (mains_mem_named (hsubset htx))) hreplay
  rw [hplan]
  refine ⟨final', hreplay', fun tx htx => ?_, fun tx htx hlast => ?_⟩
  · exact main_lt_last_of_mem_prune (hsubset htx)
  · rw [← hfinal _ (mains_mem_named htx)]
    exact get_ne_of_planFrom s seed hknown hreplay htx hlast

/-- A plan can be replayed from the provider's nonces: no main action meets an account whose nonce
is another one.  So no main action is planned twice, and those of one account are planned in the
order of their nonces. -/
theorem plan_replays (s : Settings) (b : Batch) (provider : Address → Nonce) (seed : UInt64)
    (st : NonceTable) (hst : ∀ a ∈ b.senders, st.get a = provider a) :
    (∃ final, st.replay? (s.planWith b provider seed).transactions = some final) ∧
      (s.planWith b provider seed).mains.Nodup ∧
      (s.planWith b provider seed).mains.Pairwise fun x y =>
        x.sender = y.sender → x.nonce < y.nonce := by
  rcases exists_replay?_planWith s b provider seed hst with ⟨final, hreplay, hlast, _⟩
  exact ⟨⟨final, hreplay⟩, nodup_mains_of_replay? hreplay hlast,
    pairwise_mains_of_replay? hreplay hlast⟩

/-- A provider for whom the account with the gap stands right before its transaction. -/
def pastTheGap (a : Address) : Nonce := if Octets.ofNat 20 3 = a then 5 else 0

/-- A table with the answers of the provider for the tangled batch. -/
theorem get_pastTheGap (a : Address) :
    (NonceTable.ofList [(.ofNat 20 3, 5)]).get a = pastTheGap a :=
  get_set ∅ _ _ _

theorem plan_tangled_replays :
    (∀ a ∈ tangled.senders, (NonceTable.ofList [(.ofNat 20 3, 5)]).get a = pastTheGap a) ∧
      (∃ final, (NonceTable.ofList [(.ofNat 20 3, 5)]).replay?
        (Settings.planWith {} tangled pastTheGap 7).transactions = some final) ∧
      (Settings.planWith {} tangled pastTheGap 7).mains.Nodup ∧
      (Settings.planWith {} tangled pastTheGap 7).mains.Pairwise fun x y =>
        x.sender = y.sender → x.nonce < y.nonce :=
  ⟨fun a _ => get_pastTheGap a,
    plan_replays {} tangled pastTheGap 7 _ fun a _ => get_pastTheGap a⟩

/-- After a plan no transaction that was submitted, whether planned, left over, dropped as a repeat
or pruned, is next in turn, unless it has the last nonce. -/
theorem plan_is_maximal (s : Settings) (b : Batch) (provider : Address → Nonce) (seed : UInt64)
    (st : NonceTable) (hst : ∀ a ∈ b.senders, st.get a = provider a) :
    ∃ final, st.replay? (s.planWith b provider seed).transactions = some final ∧
      ∀ tx ∈ b, tx.main.nonce < Nonce.last → final.get tx.main.sender ≠ tx.main.nonce := by
  rcases exists_replay?_planWith s b provider seed hst with ⟨final, hreplay, _, hnone⟩
  exact ⟨final, hreplay, hnone⟩

theorem plan_tangled_is_maximal :
    (∀ a ∈ tangled.senders, (NonceTable.ofList [(.ofNat 20 3, 5)]).get a = pastTheGap a) ∧
      ∃ final, (NonceTable.ofList [(.ofNat 20 3, 5)]).replay?
        (Settings.planWith {} tangled pastTheGap 7).transactions = some final ∧
        ∀ tx ∈ tangled, tx.main.nonce < Nonce.last → final.get tx.main.sender ≠ tx.main.nonce :=
  ⟨fun a _ => get_pastTheGap a,
    plan_is_maximal {} tangled pastTheGap 7 _ fun a _ => get_pastTheGap a⟩

end BatchOrder
