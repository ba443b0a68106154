import BatchOrder.Proofs.Pruning

/-!
# Unreachable actions never run

Whatever transactions of a batch are executed, in whatever order: as long as only actions of the
batch are spent, no account goes beyond the end of the run of nonces that the batch gives it.  So an
action outside of that run is never next in turn.  A transaction with such a main action does not
occur in any execution, and such an authorization has no effect in any.

Main results:

- Theorem `reachable_eq_filterMap`: what dropping unreachable actions makes of each transaction.
- Theorem `InRuns.reaches`: what is next in turn is reachable.
- Theorem `InRuns.foldl_spend_filter`: unreachable authorizations have no effect.
- Theorem `executions_survive_pruning`: every execution is one of what is left as well.
-/

namespace BatchOrder

/-- What is left of a transaction: its reachable authorizations, if its main action is reachable. -/
def Batch.survivor? (b : Batch) (st : NonceTable) (tx : Transaction) : Option Transaction :=
  if reaches st (b.runEnds st) tx.main then
    some { tx with auth := tx.auth.filter (reaches st (b.runEnds st)) }
  else none

variable {b c : Batch} {st u v : NonceTable}

/-- Unreachable actions are dropped transaction by transaction. -/
theorem reachable_eq_filterMap (b : Batch) (st : NonceTable) :
    b.reachable st = b.filterMap (b.survivor? st) := by
  have hkeeping : b.reachable st = b.keeping (reaches st (b.runEnds st)) := rfl
  rw [hkeeping, Batch.keeping, ← List.filterMap_eq_map, List.filterMap_filter]
  rfl

/-! ## States within the runs -/

/-- Every account stands in the run of nonces that the batch gives it, or at its end. -/
structure InRuns (b : Batch) (st u : NonceTable) : Prop where
  begun : ∀ s, st.get s ≤ u.get s
  within : ∀ s, u.get s ≤ (b.runEnds st).get s

/-- At the start every account stands at the beginning of its run. -/
theorem inRuns_start (b : Batch) (st : NonceTable) : InRuns b st st where
  begun _ := UInt64.le_refl _
  within s := get_le_get_runEnds b st s

section Executions

variable (hknown : ∀ s ∈ b.senders, st.contains s) (hlast : ∀ a ∈ b.actions, a.nonce < Nonce.last)
include hknown hlast

/-- What is next in turn is reachable. -/
theorem InRuns.reaches (h : InRuns b st u) {a : Action} (ha : a ∈ b.actions)
    (hturn : a.nonce = u.get a.sender) : reaches st (b.runEnds st) a := by
  have hentry : (st.find? a.sender).isSome := by
    rw [← NonceTable.contains_eq_isSome]
    exact hknown _ (List.mem_map_of_mem ha)
  apply reaches_of_le_of_le ha hentry (hlast a ha)
  · rw [hturn]
    exact h.begun a.sender
  · rw [hturn]
    exact h.within a.sender

/-- No action of the batch takes an account out of its run. -/
theorem InRuns.spend (h : InRuns b st u) {a : Action} (ha : a ∈ b.actions) :
    InRuns b st (u.spend a) where
  begun s := UInt64.le_trans (h.begun s) (NonceTable.get_le_get_spend u a s)
  within s := by
    apply NonceTable.get_spend_le (h.within s)
    rintro rfl hturn
    exact (reaches_iff.1 (h.reaches hknown hlast ha hturn)).2

/-- No actions of the batch in a row take an account out of its run. -/
theorem InRuns.foldl_spend (h : InRuns b st u) {as : List Action} (has : as ⊆ b.actions) :
    InRuns b st (as.foldl NonceTable.spend u) := by
  induction as generalizing u with
  | nil => exact h
  | cons a as ih =>
      rcases List.cons_subset.1 has with ⟨ha, has⟩
      exact ih (h.spend hknown hlast ha) has

/-- Unreachable authorizations have no effect, wherever they stand in the list. -/
theorem InRuns.foldl_spend_filter (h : InRuns b st u) {as : List Action} (has : as ⊆ b.actions) :
    (as.filter (BatchOrder.reaches st (b.runEnds st))).foldl NonceTable.spend u =
      as.foldl NonceTable.spend u := by
  induction as generalizing u with
  | nil => rfl
  | cons a as ih =>
      rcases List.cons_subset.1 has with ⟨ha, has⟩
      by_cases hreach : BatchOrder.reaches st (b.runEnds st) a
      · rw [List.filter_cons_of_pos hreach, List.foldl_cons, List.foldl_cons]
        exact ih (h.spend hknown hlast ha) has
      · have hidle : u.spend a = u := if_neg fun hturn => hreach (h.reaches hknown hlast ha hturn)
        rw [List.filter_cons_of_neg hreach, List.foldl_cons, hidle]
        exact ih h has

/-! ## Executions -/

/-- A transaction that runs is not dropped, what is left of it does the same, and no account leaves
its run. -/
theorem InRuns.execute? (h : InRuns b st u) {tx : Transaction} (htx : tx ∈ b)
    (hexec : u.execute? tx = some v) :
    ∃ tx', b.survivor? st tx = some tx' ∧ u.execute? tx' = some v ∧ InRuns b st v := by
  have hactions : tx.actions ⊆ b.actions := Batch.actions_subset_of_mem htx
  rcases NonceTable.execute?_eq_some_iff.1 hexec with ⟨hturn, rfl⟩
  have hreach := h.reaches hknown hlast (Batch.main_mem_actions htx) hturn
  refine ⟨_, if_pos hreach, NonceTable.execute?_eq_some_iff.2 ⟨hturn, ?_⟩,
    h.foldl_spend hknown hlast hactions⟩
  have hmain := h.spend hknown hlast (Batch.main_mem_actions htx)
  exact (hmain.foldl_spend_filter hknown hlast (List.cons_subset.1 hactions).2).symm

/-- Whatever is replayed from within the runs survives pruning, and the survivors have the same
effect. -/
theorem InRuns.replay? (h : InRuns b st u) (hc : c ⊆ b) (hreplay : u.replay? c = some v) :
    (∀ tx ∈ c, (b.survivor? st tx).isSome) ∧
      u.replay? (c.filterMap (b.survivor? st)) = some v := by
  induction c generalizing u with
  | nil => exact ⟨fun _ htx => absurd htx List.not_mem_nil, hreplay⟩
  | cons tx c ih =>
      rcases List.cons_subset.1 hc with ⟨htx, hc⟩
      rcases NonceTable.replay?_cons_eq_some_iff.1 hreplay with ⟨w, hexec, hrest⟩
      rcases h.execute? hknown hlast htx hexec with ⟨tx', htx', hexec', hw⟩
      rcases ih hw hc hrest with ⟨hall, hrest'⟩
      refine ⟨List.forall_mem_cons.2 ⟨Option.isSome_iff_exists.2 ⟨tx', htx'⟩, hall⟩, ?_⟩
      rw [List.filterMap_cons_some htx']
      exact NonceTable.replay?_cons_eq_some_iff.2 ⟨w, hexec', hrest'⟩

end Executions

/-- Dropping the unreachable actions of a batch goes unnoticed by its executions.  Let any sequence
of its transactions run.  None of them is dropped, and if each is replaced by what is left of it,
the sequence runs as well and ends at the same nonces. -/
theorem executions_survive_pruning (hknown : ∀ s ∈ b.senders, st.contains s)
    (hlast : ∀ a ∈ b.actions, a.nonce < Nonce.last) (hc : c ⊆ b)
    (hreplay : st.replay? c = some u) :
    b.reachable st = b.filterMap (b.survivor? st) ∧
      (∀ tx ∈ c, (b.survivor? st tx).isSome) ∧
      st.replay? (c.filterMap (b.survivor? st)) = some u :=
  ⟨reachable_eq_filterMap b st, (inRuns_start b st).replay? hknown hlast hc hreplay⟩

/-- The first transaction has a gap in front of it, which an authorization of the second bridges.
Another authorization of the second is out of reach, and so is the main action of the third. -/
def bridged : Batch :=
  [⟨⟨.ofNat 20 2, 1⟩, []⟩, ⟨⟨.ofNat 20 1, 0⟩, [⟨.ofNat 20 2, 5⟩, ⟨.ofNat 20 2, 0⟩]⟩,
    ⟨⟨.ofNat 20 3, 2⟩, []⟩]

/-- The accounts of the batch before any of it runs. -/
def beforeBridge : NonceTable := .ofList [(.ofNat 20 1, 0), (.ofNat 20 2, 0), (.ofNat 20 3, 0)]

/-- The same accounts after the second transaction and then the first. -/
def pastBridge : NonceTable := .ofList [(.ofNat 20 1, 1), (.ofNat 20 2, 2), (.ofNat 20 3, 0)]

/-- The bridging transaction and the one behind the gap, executed in this order. -/
theorem executions_of_bridged_survive :
    (∀ s ∈ bridged.senders, beforeBridge.contains s) ∧
      (∀ a ∈ bridged.actions, a.nonce < Nonce.last) ∧
      (bridged.take 2).reverse ⊆ bridged ∧
      beforeBridge.replay? (bridged.take 2).reverse = some pastBridge ∧
      bridged.reachable beforeBridge = bridged.filterMap (bridged.survivor? beforeBridge) ∧
      (∀ tx ∈ (bridged.take 2).reverse, (bridged.survivor? beforeBridge tx).isSome) ∧
      beforeBridge.replay? ((bridged.take 2).reverse.filterMap (bridged.survivor? beforeBridge)) =
        some pastBridge := by
  have hknown : ∀ s ∈ bridged.senders, beforeBridge.contains s := by decide
  have hlast : ∀ a ∈ bridged.actions, a.nonce < Nonce.last := by decide
  have hdrawn : (bridged.take 2).reverse ⊆ bridged := by decide
  have hreplay : beforeBridge.replay? (bridged.take 2).reverse = some pastBridge := by decide
  exact ⟨hknown, hlast, hdrawn, hreplay,
    executions_survive_pruning hknown hlast hdrawn hreplay⟩

end BatchOrder
