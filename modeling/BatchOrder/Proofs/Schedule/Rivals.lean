import BatchOrder.Proofs.Planning
import BatchOrder.Proofs.Remainder

/-!
# What the score of a waiting transaction counts

An authorization collides if it is next in turn and pending, that is, if it is found in a set of
main actions.  The set cannot tell whose main action that is: it might be the transaction's own, or
that of a transaction with the main action of one that has run.  Neither can happen where every main
action occurs once and no transaction authorizes its own.  Pruning leaves such a batch, clusters of
it are of this kind too, and then at any time the pending actions are the main actions of the
transactions that wait, and an authorization collides exactly with another one of these.

Main results:

- Theorem `unambiguous_of_mem_clusters`: the clusters of a pruned batch are unambiguous.
- Theorem `Progress.Faithful.mem_pending_iff`: which actions are pending.
- Theorem `Progress.Faithful.mem_pending_iff_waitsElsewhere`: which authorizations are.
- Theorem `scores_count_rivals`: what the scores count in every state of the scheduler.
-/

namespace BatchOrder

/-! ## Unambiguous batches -/

namespace Batch

/-- A main action tells which transaction it belongs to, also among the authorizations of one. -/
structure Unambiguous (b : Batch) : Prop where
  distinct : b.mains.Nodup
  foreign : ∀ tx ∈ b, tx.main ∉ tx.auth

/-- A part of an unambiguous batch is unambiguous. -/
theorem Unambiguous.sublist {b c : Batch} (h : b.Unambiguous) (hc : c.Sublist b) :
    c.Unambiguous where
  distinct := h.distinct.sublist (hc.map Transaction.main)
  foreign tx htx := h.foreign tx (hc.subset htx)

/-- Two transactions with one main action stand at one position. -/
theorem Unambiguous.eq_of_main_eq {b : Batch} (h : b.Unambiguous) {i j : Nat} {tx tx' : Transaction}
    (hi : b[i]? = some tx) (hj : b[j]? = some tx') (hmain : tx.main = tx'.main) : i = j := by
  have hlength : i < b.mains.length := by
    rw [mains, List.length_map]
    exact (List.getElem?_eq_some_iff.1 hi).1
  apply (List.getElem?_inj hlength h.distinct).1
  rw [mains, List.getElem?_map, List.getElem?_map, hi, hj, Option.map_some, Option.map_some, hmain]

/-- What pruning leaves is unambiguous. -/
theorem unambiguous_prune (b : Batch) (st : NonceTable) : (b.prune st).Unambiguous where
  distinct := nodup_mains_prune b st
  foreign _ htx hown := UInt64.lt_irrefl _ (main_lt_of_mem_auth_prune htx hown rfl)

/-- Every cluster of what pruning leaves is unambiguous. -/
theorem unambiguous_of_mem_clusters {b c : Batch} {st : NonceTable}
    (hc : c ∈ (b.prune st).clusters) : c.Unambiguous :=
  (unambiguous_prune b st).sublist (Batch.sublist_of_mem_clusters hc)

end Batch

/-! ## Waiting elsewhere -/

namespace Course

/-- An action is the main action of a transaction that waits at another position. -/
def WaitsElsewhere (b : Batch) (c : Course) (i : Nat) (a : Action) : Prop :=
  ∃ j tx, j ≠ i ∧ c.Waits b j tx ∧ tx.main = a

instance (b : Batch) (c : Course) (i : Nat) : DecidablePred (c.WaitsElsewhere b i) := fun a =>
  decidable_of_iff (∃ e ∈ b.zipIdx, e.2 ≠ i ∧ e.2 ∉ c.taken ∧ e.1.main = a) <| by
    constructor
    · rintro ⟨⟨tx, j⟩, hmem, hne, hout, hmain⟩
      exact ⟨j, tx, hne, ⟨List.mem_zipIdx_iff_getElem?.1 hmem, hout⟩, hmain⟩
    · rintro ⟨j, tx, hne, ⟨hj, hout⟩, hmain⟩
      exact ⟨(tx, j), List.mem_zipIdx_iff_getElem?.2 hj, hne, hout, hmain⟩

/-- A score counts the authorizations of a transaction under some nonces: as colliding those that
are next in turn and the main action of a transaction that waits elsewhere, as blocked those that
are out of reach, and as neither those that have been passed. -/
structure Counts (b : Batch) (c : Course) (i : Nat) (tx : Transaction) (st : NonceTable)
    (x : Standing) : Prop where
  colliding : x.colliding = tx.auth.countP fun a =>
    a.nonce = st.get a.sender ∧ c.WaitsElsewhere b i a
  blocked : x.blocked = tx.auth.countP fun a => st.get a.sender < a.nonce
  authorizations : x.authorizations = tx.auth.length
  passed : x.colliding + x.blocked + tx.auth.countP (fun a => a.nonce < st.get a.sender) ≤
    x.authorizations

end Course

namespace Progress

variable {b : Batch} {st : NonceTable} {p : Progress}

/-- The pending actions are the main actions of the transactions that wait.  A scheduled transaction
with the same main action would stand at the same position. -/
theorem Faithful.mem_pending_iff (hf : Faithful b st p) (hb : b.Unambiguous) {a : Action} :
    a ∈ p.pending ↔ ∃ i tx, p.course.Waits b i tx ∧ tx.main = a := by
  rw [hf.pending]
  constructor
  · rintro ⟨ha, hout⟩
    rcases List.mem_map.1 ha with ⟨tx, htx, rfl⟩
    rcases List.getElem?_of_mem htx with ⟨i, hi⟩
    exact ⟨i, tx, ⟨hi, fun htaken => hout (List.mem_map_of_mem (mem_pick.2 ⟨i, htaken, hi⟩))⟩, rfl⟩
  · rintro ⟨i, tx, ⟨hi, hout⟩, rfl⟩
    refine ⟨List.mem_map_of_mem (List.mem_of_getElem? hi), fun ha => ?_⟩
    rcases List.mem_map.1 ha with ⟨tx', htx', hmain⟩
    rcases mem_pick.1 htx' with ⟨j, htaken, hj⟩
    exact hout (hb.eq_of_main_eq hj hi hmain ▸ htaken)

/-- The pending authorizations of a transaction that waits are the main actions of others. -/
theorem Faithful.mem_pending_iff_waitsElsewhere (hf : Faithful b st p) (hb : b.Unambiguous)
    {i : Nat} {tx : Transaction} (hw : p.course.Waits b i tx) {a : Action} (ha : a ∈ tx.auth) :
    a ∈ p.pending ↔ p.course.WaitsElsewhere b i a := by
  rw [hf.mem_pending_iff hb]
  constructor
  · rintro ⟨j, tx', hw', rfl⟩
    refine ⟨j, tx', ?_, hw', rfl⟩
    rintro rfl
    obtain rfl : tx = tx' := Option.some.inj (hw.1.symm.trans hw'.1)
    exact hb.foreign tx (List.mem_of_getElem? hw.1) ha
  · rintro ⟨j, tx', _, hw', hmain⟩
    exact ⟨j, tx', hw', hmain⟩

end Progress

/-- No authorization is counted twice, and none that has been passed is: the nonce of an
authorization is that of its account, or lies above it, or below. -/
theorem colliding_add_blocked_add_passed_le (tx : Transaction) (st : NonceTable)
    (pending : Std.HashSet Action) :
    (tx.score st pending).colliding + (tx.score st pending).blocked +
      tx.auth.countP (fun a => a.nonce < st.get a.sender) ≤
        (tx.score st pending).authorizations := by
  unfold Transaction.score
  dsimp only
  induction tx.auth with
  | nil => exact Nat.le_refl 0
  | cons a as ih =>
      simp only [List.countP_cons, List.length_cons]
      grind

/-- What the scheduler knows of the transactions that wait when it orders a cluster of a pruned
batch, in every state that it passes through.  The pending actions are their main actions, each of
one of them.  The heap holds their scores; and whatever the nonces are, so also while authorizations
are being consumed, the score of a transaction that waits counts as colliding its authorizations
that are next in turn and the main action of another transaction that waits, as blocked those that
are out of reach, and as neither those that have been passed. -/
theorem scores_count_rivals (b : Batch) (st : NonceTable) {c : Batch}
    (hc : c ∈ (b.prune st).clusters) (start : NonceTable) {p : Progress}
    (hp : Progress.Reached c start p) :
    (∀ a, a ∈ p.pending ↔ ∃! i, ∃ tx, p.course.Waits c i tx ∧ tx.main = a) ∧
      ∀ i tx, p.course.Waits c i tx →
        p.waiting.value? i = some (tx.score p.nonces p.pending) ∧
          ∀ u : NonceTable, p.course.Counts c i tx u (tx.score u p.pending) := by
  have hlast := (separate_clusters_prune b st).lt_last c hc
  have hmains (tx : Transaction) (htx : tx ∈ c) : tx.main.nonce < Nonce.last :=
    hlast _ (Batch.main_mem_actions htx)
  have hclear := Batch.unambiguous_of_mem_clusters hc
  rcases Progress.faithful_of_reached hlast hp with ⟨hf, _⟩
  refine ⟨fun a => ?_, fun i tx hw => ⟨?_, fun u => ⟨?_, rfl, rfl, ?_⟩⟩⟩
  · rw [hf.mem_pending_iff hclear]
    constructor
    · rintro ⟨i, tx, hw, hmain⟩
      refine ⟨i, ⟨tx, hw, hmain⟩, ?_⟩
      rintro j ⟨tx', hw', hmain'⟩
      exact hclear.eq_of_main_eq hw'.1 hw.1 (hmain'.trans hmain.symm)
    · rintro ⟨i, ⟨tx, hw, hmain⟩, _⟩
      exact ⟨i, tx, hw, hmain⟩
  · rw [hf.value? hmains hw, hf.score_eq hmains]
  · apply List.countP_congr
    intro a ha
    simp only [Bool.and_eq_true, decide_eq_true_eq, Std.HashSet.contains_iff_mem]
    exact and_congr_right fun _ => hf.mem_pending_iff_waitsElsewhere hclear hw ha
  · exact colliding_add_blocked_add_passed_le ..

/-- The first transaction authorizes what the two others have as main actions, one of which is out
of reach at the start; the third authorizes an action that nobody has. -/
def contested : Batch :=
  let act (s : Nat) (n : Nonce) : Action := ⟨.ofNat 20 s, n⟩
  [⟨act 1 0, [act 2 0, act 2 1]⟩, ⟨act 2 0, []⟩, ⟨act 2 1, [act 1 1]⟩]

/-- The accounts of the batch before any of it runs. -/
def beforeContest : NonceTable := .ofList [(.ofNat 20 1, 0), (.ofNat 20 2, 0)]

/-- Pruning leaves the batch as it is: both accounts are named with the first two nonces. -/
theorem prune_contested : contested.prune beforeContest = contested := by
  have hcandidates : contested.candidates = contested := by
    rw [Batch.candidates_eq_admitted]
    decide
  have hstart : ∀ a ∈ contested.actions, (beforeContest.find? a.sender).isSome ∧
      beforeContest.get a.sender ≤ a.nonce ∧ a.nonce < Nonce.last := by decide
  have hnamed : ∀ a ∈ contested.actions, a.nonce ≤ 1 ∧
      ⟨a.sender, 0⟩ ∈ contested.actions ∧ ⟨a.sender, 1⟩ ∈ contested.actions := by decide
  change contested.candidates.reachable beforeContest = contested
  rw [hcandidates]
  refine reachable_eq_self fun a ha => reaches_iff_forall.2 ?_
  rcases hstart a ha with ⟨hknown, hle, hlast⟩
  rcases hnamed a ha with ⟨hone, hzeroth, hfirst⟩
  refine ⟨hknown, hle, hlast, fun k _ hk => ?_⟩
  have hcases : k = 0 ∨ k = 1 := by grind
  rcases hcases with rfl | rfl
  · exact hzeroth
  · exact hfirst

/-- The contested batch is a cluster of its own. -/
theorem mem_clusters_contested : contested ∈ (contested.prune beforeContest).clusters := by
  rw [prune_contested]
  apply Batch.mem_clusters_of_common (s := Octets.ofNat 20 2) <;> decide

theorem scores_of_contested_count_rivals :
    contested ∈ (contested.prune beforeContest).clusters ∧
      Progress.Reached contested beforeContest (.start contested beforeContest) ∧
      (∀ a, a ∈ (Progress.start contested beforeContest).pending ↔ ∃! i, ∃ tx,
        (Progress.start contested beforeContest).course.Waits contested i tx ∧ tx.main = a) ∧
      ∀ i tx, (Progress.start contested beforeContest).course.Waits contested i tx →
        (Progress.start contested beforeContest).waiting.value? i =
            some (tx.score (Progress.start contested beforeContest).nonces
              (Progress.start contested beforeContest).pending) ∧
          ∀ u : NonceTable, (Progress.start contested beforeContest).course.Counts contested i tx u
            (tx.score u (Progress.start contested beforeContest).pending) :=
  ⟨mem_clusters_contested, .refl,
    scores_count_rivals contested beforeContest mem_clusters_contested beforeContest .refl⟩

end BatchOrder
