import BatchOrder.Proofs.Planning
import BatchOrder.Proofs.Repeats

/-!
# Replaying a plan with the transactions as submitted

A plan names main actions, and what runs in the end are the transactions as they were submitted,
with the authorizations that pruning removed.  Along the replay of a plan every account stays within
its run, so an authorization that stands outside of the run, or for the account of the main action
itself and not beyond it, is never next in turn: spending it has no effect.  A repeated
authorization is another matter.  It has no effect either if the repeats of its list are in turn,
and otherwise it may.

Main results:

- Theorem `foldl_spend_filter`: defeated and unreachable authorizations have no effect.
- Theorem `replay?_submitted`: what a replay of the submitted transactions does.
- Theorem `crossed_not_replayed`: a plan whose submitted transactions cannot be replayed.
- Theorem `plan_replays_as_submitted`: they can if the repeats of every list are in turn.
-/

namespace BatchOrder

open NonceTable

/-- The first transaction of a batch with each of the given main actions. -/
def Batch.submitted? (b : Batch) (mains : List Action) : Option Batch :=
  mains.mapM fun a => b.find? fun tx => tx.main = a

/-- What was submitted for some main actions belongs to the batch. -/
theorem Batch.subset_of_submitted? {b : Batch} {mains : List Action} {txs : Batch}
    (h : b.submitted? mains = some txs) : txs ⊆ b := by
  induction mains generalizing txs with
  | nil =>
      rcases Option.some.inj h with rfl
      exact List.nil_subset b
  | cons a mains ih =>
      unfold Batch.submitted? at h ih
      simp only [List.mapM_cons, Option.bind_eq_bind, Option.bind_eq_some_iff, Option.pure_def,
        Option.some.injEq] at h
      rcases h with ⟨tx, hfind, rest, hrest, rfl⟩
      exact List.cons_subset.2 ⟨List.mem_of_find?_eq_some hfind, ih hrest⟩

/-- A transaction with its complete authorizations in order, except that repeats are left out of a
list in which they are out of turn. -/
def Transaction.withoutStrayRepeats (tx : Transaction) : Transaction :=
  if RepeatsInTurn tx.auth then tx else { tx with auth := keepFirst id tx.auth }

/-- Leaving out stray repeats keeps the main action. -/
theorem Transaction.main_withoutStrayRepeats (tx : Transaction) :
    tx.withoutStrayRepeats.main = tx.main := by
  unfold withoutStrayRepeats
  split <;> rfl

/-- With stray repeats left out, the authorizations spend what they do without any repeats. -/
theorem Transaction.foldl_spend_withoutStrayRepeats (tx : Transaction) (u : NonceTable) :
    tx.withoutStrayRepeats.auth.foldl spend u = (keepFirst id tx.auth).foldl spend u := by
  unfold withoutStrayRepeats
  split
  · next hturn => exact (foldl_spend_keepFirst hturn u).symm
  · rfl

/-! ## Removed authorizations have no effect -/

variable {b : Batch} {start u : NonceTable}

/-- Every account that a batch names stands within its run. -/
def Within (b : Batch) (start u : NonceTable) : Prop :=
  ∀ s ∈ b.named, start.get s ≤ u.get s ∧ u.get s ≤ (b.candidates.runEnds start).get s

/-- No reachable action takes an account out of its run. -/
theorem Within.spend (h : Within b start u) {a : Action}
    (ha : reaches start (b.candidates.runEnds start) a) : Within b start (u.spend a) := by
  intro s hs
  rcases h s hs with ⟨hle, hstop⟩
  refine ⟨UInt64.le_trans hle (get_le_get_spend u a s), get_spend_le hstop ?_⟩
  rintro rfl _
  exact (reaches_iff.1 ha).2

/-- No reachable actions in a row take an account out of its run. -/
theorem Within.foldl_spend (h : Within b start u) {as : List Action}
    (has : ∀ a ∈ as, reaches start (b.candidates.runEnds start) a) :
    Within b start (as.foldl NonceTable.spend u) := by
  induction as generalizing u with
  | nil => exact h
  | cons a as ih =>
      exact ih (h.spend (has a List.mem_cons_self)) fun a' ha => has a' (List.mem_cons_of_mem _ ha)

/-- An authorization that is not defeated still stands in the batch when the runs are taken. -/
theorem mem_actions_candidates {tx : Transaction} (htx : tx ∈ b.distinct) {a : Action}
    (ha : a ∈ tx.auth) (hdefeats : tx.defeats a = false) : a ∈ b.candidates.actions := by
  refine List.mem_flatMap.2 ⟨tx.satisfiable, List.mem_map_of_mem htx, List.mem_cons_of_mem _ ?_⟩
  exact mem_keepFirst_id.2 (List.mem_filter.2 ⟨ha, by simp [hdefeats]⟩)

/-- What has no effect once the main action has been spent: an authorization that the transaction
defeats, as its account is past it, and one outside of the run of its account. -/
theorem spend_eq_self (h : Within b start u) (hknown : ∀ s ∈ b.senders, (start.find? s).isSome)
    {tx : Transaction} (htx : tx ∈ b.distinct) (hpassed : tx.main.nonce < u.get tx.main.sender)
    {a : Action} (ha : a ∈ tx.auth)
    (hout : ¬ tx.retains start (b.candidates.runEnds start) a) : u.spend a = u := by
  have hnamed : a.sender ∈ b.named :=
    Batch.mem_named.2 ⟨tx, (sublist_keepFirst _ _).subset htx,
      List.mem_map_of_mem (List.mem_cons_of_mem _ ha)⟩
  rcases h a.sender hnamed with ⟨hle, hstop⟩
  by_cases hturn : a.nonce = u.get a.sender
  · cases hdefeats : tx.defeats a with
    | true =>
        unfold Transaction.defeats at hdefeats
        rw [Bool.and_eq_true, decide_eq_true_eq, decide_eq_true_eq] at hdefeats
        rcases hdefeats with ⟨hsender, hnonce⟩
        rw [hturn, hsender] at hnonce
        exact absurd hpassed (UInt64.not_lt.2 hnonce)
    | false =>
        rw [← hturn] at hle hstop
        have hend : ¬ a.nonce < (b.candidates.runEnds start).get a.sender := by
          intro hlt
          apply hout
          rw [Transaction.retains, hdefeats, reaches_iff.2 ⟨hle, hlt⟩]
          rfl
        have heq := UInt64.le_antisymm hstop (UInt64.not_lt.1 hend)
        exact spend_eq_self_of_last (get_runEnds_eq_last (mem_actions_candidates htx ha hdefeats)
          (hknown _ hnamed) heq)
  · exact if_neg hturn

/-- Defeated and unreachable authorizations have no effect, wherever they stand in the list. -/
theorem foldl_spend_filter (h : Within b start u)
    (hknown : ∀ s ∈ b.senders, (start.find? s).isSome) {tx : Transaction} (htx : tx ∈ b.distinct)
    (hpassed : tx.main.nonce < u.get tx.main.sender) {as : List Action} (has : as ⊆ tx.auth) :
    (as.filter (tx.retains start (b.candidates.runEnds start))).foldl spend u =
      as.foldl spend u := by
  induction as generalizing u with
  | nil => rfl
  | cons a as ih =>
      have has' : as ⊆ tx.auth := fun a' ha' => has (List.mem_cons_of_mem _ ha')
      by_cases hkept : tx.retains start (b.candidates.runEnds start) a
      · rw [List.filter_cons_of_pos hkept, List.foldl_cons, List.foldl_cons]
        unfold Transaction.retains at hkept
        have hreach := (Bool.and_eq_true _ _ ▸ hkept).2
        exact ih (h.spend hreach) (UInt64.lt_of_lt_of_le hpassed (get_le_get_spend ..)) has'
      · rw [List.filter_cons_of_neg hkept, List.foldl_cons,
          spend_eq_self h hknown htx hpassed (has List.mem_cons_self) hkept]
        exact ih h hpassed has'

/-! ## Submitted transactions in a replay -/

/-- A planned transaction and the submitted one do the same to nonces within the runs. -/
theorem execute?_submitted (h : Within b start u)
    (hknown : ∀ s ∈ b.senders, (start.find? s).isSome) {tx : Transaction}
    (htx : tx ∈ b.prune start) :
    ∃ tx', b.find? (fun t => t.main = tx.main) = some tx' ∧
      u.execute? tx'.withoutStrayRepeats = u.execute? tx ∧
      ∀ v, u.execute? tx = some v → Within b start v := by
  have hreach (a : Action) (ha : a ∈ tx.actions) : reaches start (b.candidates.runEnds start) a :=
    reaches_of_mem_prune (Batch.actions_subset_of_mem htx ha)
  have hlast : tx.main.nonce < Nonce.last := main_lt_last_of_mem_prune htx
  rcases mem_prune.1 htx with ⟨tx', htx', _, rfl⟩
  refine ⟨tx', ?_, ?_, fun v hv => ?_⟩
  · have hfirst := find?_of_mem_keepFirst htx'
    simpa [beq_eq_decide] using hfirst
  · unfold execute?
    rw [Transaction.main_withoutStrayRepeats, Transaction.foldl_spend_withoutStrayRepeats]
    by_cases hturn : tx'.main.nonce = u.get tx'.main.sender
    · have hspend : u.advance tx'.main.sender = u.spend tx'.main := (if_pos hturn).symm
      have hpassed : tx'.main.nonce < (u.spend tx'.main).get tx'.main.sender := by
        rw [get_spend, if_pos ⟨rfl, hturn⟩, ← hturn]
        exact Nonce.lt_succ hlast
      rw [if_pos hturn, if_pos hturn, hspend]
      exact congrArg some (foldl_spend_filter (h.spend (hreach _ List.mem_cons_self)) hknown htx'
        hpassed (sublist_keepFirst id tx'.auth).subset).symm
    · rw [if_neg hturn, if_neg hturn]
  · rcases execute?_eq_some_iff.1 hv with ⟨_, rfl⟩
    exact h.foldl_spend hreach

/-- Replaying planned transactions and replaying the submitted ones is the same. -/
theorem replay?_submitted (h : Within b start u)
    (hknown : ∀ s ∈ b.senders, (start.find? s).isSome) {order : Batch}
    (horder : order ⊆ b.prune start) :
    ∃ txs, b.submitted? order.mains = some txs ∧
      u.replay? (txs.map Transaction.withoutStrayRepeats) = u.replay? order := by
  induction order generalizing u with
  | nil => exact ⟨[], rfl, rfl⟩
  | cons tx order ih =>
      obtain ⟨tx', hfind, hexec, hwithin⟩ :=
        execute?_submitted h hknown (horder List.mem_cons_self)
      have horder' : order ⊆ b.prune start := fun t ht => horder (List.mem_cons_of_mem _ ht)
      have hcons (txs : Batch) (htxs : b.submitted? (Batch.mains order) = some txs) :
          b.submitted? (Batch.mains (tx :: order)) = some (tx' :: txs) := by
        unfold Batch.submitted? Batch.mains at htxs ⊢
        rw [List.map_cons, List.mapM_cons, hfind, htxs]
        rfl
      cases hrun : u.execute? tx with
      | none =>
          rcases ih h horder' with ⟨txs, htxs, _⟩
          refine ⟨tx' :: txs, hcons txs htxs, ?_⟩
          rw [List.map_cons, replay?_cons, replay?_cons, hexec, hrun]
          rfl
      | some v =>
          rcases ih (hwithin v hrun) horder' with ⟨txs, htxs, hsame⟩
          refine ⟨tx' :: txs, hcons txs htxs, ?_⟩
          rw [List.map_cons, replay?_cons, replay?_cons, hexec, hrun]
          exact hsame

/-! ## A repeat out of turn -/

/-- An authorization stands in front of the one before it in turn, and again behind it; a second
transaction has the main action that comes after both. -/
def crossed : Batch :=
  [⟨⟨.ofNat 20 1, 0⟩, [⟨.ofNat 20 2, 1⟩, ⟨.ofNat 20 2, 0⟩, ⟨.ofNat 20 2, 1⟩]⟩,
    ⟨⟨.ofNat 20 2, 1⟩, []⟩]

/-- What pruning makes of the first transaction. -/
def opener : Transaction := ⟨⟨.ofNat 20 1, 0⟩, [⟨.ofNat 20 2, 1⟩, ⟨.ofNat 20 2, 0⟩]⟩

/-- The second transaction. -/
def follower : Transaction := ⟨⟨.ofNat 20 2, 1⟩, []⟩

/-- The first two passes only drop the repeat. -/
theorem candidates_crossed : crossed.candidates = [opener, follower] := by
  have hne : Octets.ofNat 20 1 ≠ Octets.ofNat 20 2 := by decide
  simp [Batch.candidates, Batch.distinct, Batch.satisfiable, Transaction.satisfiable, keepFirst,
    keepFirstBeyond, crossed, opener, follower, Transaction.defeats, hne, hne.symm]

/-- Pruning only drops the repeat from the crossed batch.  No run ends at an action of the batch, so
the runs go beyond all of them. -/
theorem prune_crossed {st : NonceTable} (h1 : st.find? (.ofNat 20 1) = some 0)
    (h2 : st.find? (.ofNat 20 2) = some 0) : crossed.prune st = [opener, follower] := by
  have hactions : Batch.actions [opener, follower] =
      [⟨.ofNat 20 1, 0⟩, ⟨.ofNat 20 2, 1⟩, ⟨.ofNat 20 2, 0⟩, ⟨.ofNat 20 2, 1⟩] := rfl
  have hget1 : st.get (.ofNat 20 1) = 0 := by rw [NonceTable.get, h1]; rfl
  have hget2 : st.get (.ofNat 20 2) = 0 := by rw [NonceTable.get, h2]; rfl
  have hend (a : Action) (ha : a ∈ Batch.actions [opener, follower]) :
      a.nonce ≠ (Batch.runEnds [opener, follower] st).get a.sender := by
    intro h
    have hbelow : ∀ a ∈ Batch.actions [opener, follower],
        (a.sender = .ofNat 20 1 ∨ a.sender = .ofNat 20 2) ∧ a.nonce ≠ Nonce.last := by decide
    refine (hbelow a ha).2 (get_runEnds_eq_last ha ?_ h)
    rcases (hbelow a ha).1 with hs | hs
    · rw [hs, h1]; rfl
    · rw [hs, h2]; rfl
  have hpos1 : 0 < (Batch.runEnds [opener, follower] st).get (.ofNat 20 1) :=
    UInt64.lt_of_le_of_ne UInt64.zero_le (hend ⟨.ofNat 20 1, 0⟩ (by simp [hactions]))
  have hpos2 : 0 < (Batch.runEnds [opener, follower] st).get (.ofNat 20 2) :=
    UInt64.lt_of_le_of_ne UInt64.zero_le (hend ⟨.ofNat 20 2, 0⟩ (by simp [hactions]))
  have hone2 : 1 < (Batch.runEnds [opener, follower] st).get (.ofNat 20 2) :=
    UInt64.lt_of_le_of_ne (Nonce.succ_le_of_lt hpos2) (hend ⟨.ofNat 20 2, 1⟩ (by simp [hactions]))
  change crossed.candidates.reachable st = [opener, follower]
  rw [candidates_crossed]
  refine reachable_eq_self fun a ha => reaches_iff.2 ?_
  rw [hactions] at ha
  simp only [List.mem_cons, List.not_mem_nil, or_false] at ha
  rcases ha with rfl | rfl | rfl | rfl
  · exact ⟨UInt64.le_of_eq hget1, hpos1⟩
  · exact ⟨hget2 ▸ UInt64.zero_le, hone2⟩
  · exact ⟨UInt64.le_of_eq hget2, hpos2⟩
  · exact ⟨hget2 ▸ UInt64.zero_le, hone2⟩

/-- What executing the first transaction does to the nonces. -/
theorem get_of_execute?_opener {u v : NonceTable} (h2 : u.get (.ofNat 20 2) = 0)
    (h : u.execute? opener = some v) : v.get (.ofNat 20 1) = 1 ∧ v.get (.ofNat 20 2) = 1 := by
  have hne : Octets.ofNat 20 1 ≠ Octets.ofNat 20 2 := by decide
  have hsucc : Nonce.succ 0 = 1 := by decide
  rcases execute?_eq_some_iff.1 h with ⟨hturn, rfl⟩
  have h1 : u.get (.ofNat 20 1) = 0 := hturn.symm
  constructor
  · simp [opener, Transaction.actions, get_spend, h1, hne.symm, hsucc]
  · simp [opener, Transaction.actions, get_spend, h2, hne, hsucc]

/-- What it takes to execute the second transaction, and what that does. -/
theorem execute?_follower {u v : NonceTable} (h : u.execute? follower = some v) :
    u.get (.ofNat 20 2) = 1 ∧ v.get (.ofNat 20 1) = u.get (.ofNat 20 1) ∧
      v.get (.ofNat 20 2) = 2 := by
  have hne : Octets.ofNat 20 1 ≠ Octets.ofNat 20 2 := by decide
  have hsucc : Nonce.succ 1 = 2 := by decide
  rcases execute?_eq_some_iff.1 h with ⟨hturn, rfl⟩
  have h2 : u.get (.ofNat 20 2) = 1 := hturn.symm
  refine ⟨h2, ?_, ?_⟩
  · simp [follower, Transaction.actions, get_spend, hne.symm]
  · simp [follower, Transaction.actions, get_spend, h2, hsucc]

/-- The only order that settles the two: the first cannot be left out, and the second can run once,
after it. -/
theorem eq_of_settles {st : NonceTable} {order : Batch} (h1 : st.get (.ofNat 20 1) = 0)
    (h2 : st.get (.ofNat 20 2) = 0) (h : Settles st [opener, follower] order) :
    order = [opener, follower] := by
  rcases h with ⟨hsubset, final, hreplay, hnone⟩
  have hmem (tx : Transaction) (htx : tx ∈ order) : tx = opener ∨ tx = follower := by
    simpa using hsubset htx
  have hopener : final.get (.ofNat 20 1) ≠ 0 := hnone opener (by simp)
  have hfollower : final.get (.ofNat 20 2) ≠ 1 := hnone follower (by simp)
  have hturn {u v : NonceTable} (hexec : u.execute? opener = some v) : u.get (.ofNat 20 1) = 0 :=
    (execute?_eq_some_iff.1 hexec).1.symm
  cases order with
  | nil =>
      rcases Option.some.inj hreplay with rfl
      exact absurd h1 hopener
  | cons tx order =>
      rcases replay?_cons_eq_some_iff.1 hreplay with ⟨u, hexec, hrest⟩
      rcases hmem tx (by simp) with rfl | rfl
      case inr => exact absurd (h2.symm.trans (execute?_follower hexec).1) (by decide)
      rcases get_of_execute?_opener h2 hexec with ⟨hu1, hu2⟩
      cases order with
      | nil =>
          rcases Option.some.inj hrest with rfl
          exact absurd hu2 hfollower
      | cons tx order =>
          rcases replay?_cons_eq_some_iff.1 hrest with ⟨v, hexec', hrest'⟩
          rcases hmem tx (by simp) with rfl | rfl
          case inl => exact absurd (hu1.symm.trans (hturn hexec')) (by decide)
          rcases execute?_follower hexec' with ⟨_, hv1, hv2⟩
          cases order with
          | nil => rfl
          | cons tx order =>
              rcases replay?_cons_eq_some_iff.1 hrest' with ⟨w, hexec'', _⟩
              rcases hmem tx (by simp) with rfl | rfl
              · exact absurd (hu1.symm.trans (hv1.symm.trans (hturn hexec''))) (by decide)
              · exact absurd (hv2.symm.trans (execute?_follower hexec'').1) (by decide)

/-- Whatever the settings and the seed, the plan for the two transactions is to run both. -/
theorem planWith_crossed (s : Settings) (seed : UInt64) :
    (s.planWith crossed (fun _ => 0) seed).transactions = [opener, follower] := by
  let start := Id.run (crossed.startingNonces fun _ => pure 0)
  have h1 : start.find? (.ofNat 20 1) = some 0 :=
    find?_startingNonces crossed (fun _ => 0) (by decide)
  have h2 : start.find? (.ofNat 20 2) = some 0 :=
    find?_startingNonces crossed (fun _ => 0) (by decide)
  have hsettles := settles_planFrom s crossed seed start
  rw [prune_crossed h1 h2] at hsettles
  refine eq_of_settles ?_ ?_ hsettles
  · rw [NonceTable.get, h1]; rfl
  · rw [NonceTable.get, h2]; rfl

/-! ## Plans -/

/-- A plan can be replayed from the provider's nonces with the transactions as they were submitted,
and it ends at the nonces at which the planned ones end.  Only lists with repeats out of turn have
to lose their repeats. -/
theorem plan_replays_as_submitted (s : Settings) (b : Batch) (provider : Address → Nonce)
    (seed : UInt64) (st : NonceTable) (hst : ∀ a ∈ b.senders, st.get a = provider a) :
    ∃ txs final, b.submitted? (s.planWith b provider seed).mains = some txs ∧
      st.replay? (txs.map Transaction.withoutStrayRepeats) = some final ∧
      ((∀ tx ∈ txs, RepeatsInTurn tx.auth) → st.replay? txs = some final) ∧
      st.replay? (s.planWith b provider seed).transactions = some final := by
  let start := Id.run (b.startingNonces fun a => pure (provider a))
  have hstart (a : Address) (ha : a ∈ b.senders) : start.find? a = some (provider a) :=
    find?_startingNonces b provider ha
  have hknown (a : Address) (ha : a ∈ b.senders) : (start.find? a).isSome := by
    rw [hstart a ha]
    rfl
  have hwithin : Within b start st := by
    intro a ha
    have hget : start.get a = st.get a := by
      rw [hst a ha, NonceTable.get, hstart a ha]
      rfl
    rw [← hget]
    exact ⟨UInt64.le_refl _, get_le_get_runEnds _ _ _⟩
  have horder : (s.planWith b provider seed).transactions ⊆ b.prune start :=
    (settles_planFrom s b seed start).subset
  rcases replay?_submitted hwithin hknown horder with ⟨txs, htxs, hsame⟩
  rcases exists_replay?_planWith s b provider seed hst with ⟨final, hreplay, _⟩
  rw [hreplay] at hsame
  refine ⟨txs, final, htxs, hsame, fun hturn => ?_, hreplay⟩
  have hcomplete : txs.map Transaction.withoutStrayRepeats = txs := by
    refine (List.map_congr_left fun tx htx => ?_).trans (List.map_id txs)
    exact if_pos (hturn tx htx)
  rwa [hcomplete] at hsame

theorem plan_tangled_replays_as_submitted :
    (∀ a ∈ tangled.senders, (NonceTable.ofList [(.ofNat 20 3, 5)]).get a = pastTheGap a) ∧
      (∀ tx ∈ tangled, RepeatsInTurn tx.auth) ∧
      ∃ txs final,
        tangled.submitted? (Settings.planWith {} tangled pastTheGap 7).mains = some txs ∧
        (NonceTable.ofList [(.ofNat 20 3, 5)]).replay? txs = some final ∧
        (NonceTable.ofList [(.ofNat 20 3, 5)]).replay?
          (Settings.planWith {} tangled pastTheGap 7).transactions = some final := by
  have hturn : ∀ tx ∈ tangled, RepeatsInTurn tx.auth := by decide
  rcases plan_replays_as_submitted {} tangled pastTheGap 7 _ fun a _ => get_pastTheGap a with
    ⟨txs, final, htxs, _, hcomplete, hplan⟩
  refine ⟨fun a _ => get_pastTheGap a, hturn, txs, final, htxs, ?_, hplan⟩
  exact hcomplete fun tx htx => hturn tx (Batch.subset_of_submitted? htxs htx)

/-- A plan whose submitted transactions cannot be replayed: the repeat that pruning removes from the
first is spent when it runs as submitted, and takes the account past the main action of the second.
-/
theorem crossed_not_replayed :
    (∀ a ∈ crossed.senders, (∅ : NonceTable).get a = 0) ∧
      crossed.submitted? (Settings.planWith {} crossed (fun _ => 0) 0).mains = some crossed ∧
      (∅ : NonceTable).replay? crossed = none := by
  refine ⟨fun _ _ => rfl, ?_, rfl⟩
  rw [Plan.mains, planWith_crossed]
  decide

end BatchOrder
