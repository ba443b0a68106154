import Mathlib.Data.List.Nodup
import BatchOrder.Proofs.Schedule.Recording
import BatchOrder.Proofs.Spending

/-!
# A schedule accounts for all nonces

What the scheduler does to the nonces is what the transactions do that it puts out.  Its record has
an advance for every main action that it schedules and for every authorization that is next in turn,
and for nothing else; these are the actions that a replay of the schedule spends, in the same order.
So the replay ends at the nonces at which the scheduler stops, the nonces that an account gives up
are consecutive, and who is not named keeps its entry.

Main results:

- Theorem `Passes.bind`: records of computations in a row.
- Theorem `Progress.Faithful.passes_finishRecorded`: a run of the scheduler passes the actions of
  the transactions that it schedules.
- Theorem `schedule_accounts_for_nonces`: the nonces after a schedule are accounted for.
-/

namespace BatchOrder

/-- The action that its account leaves behind in an advance. -/
def Advance.passed (e : Advance) : Action := ⟨e.account, e.before⟩

/-! ## What a step passes -/

/-- Started from some nonces, a computation passes those of the given actions that are next in turn
when they are reached, and ends at the nonces at which spending them all ends. -/
structure Passes (st : NonceTable) (x : Recorded Progress) (as : List Action) : Prop where
  record : x.advances.map Advance.passed = st.spent as
  nonces : x.value.nonces = as.foldl NonceTable.spend st

theorem passes_pure {st : NonceTable} {p : Progress} (h : p.nonces = st) : Passes st (pure p) [] :=
  ⟨rfl, h⟩

/-- Computations in a row pass what each of them passes, one after another. -/
theorem Passes.bind {st : NonceTable} {x : Recorded Progress} {f : Progress → Recorded Progress}
    {as bs : List Action} (hx : Passes st x as) (hf : Passes x.value.nonces (f x.value) bs) :
    Passes st (x >>= f) (as ++ bs) where
  record := by
    rw [Recorded.advances_bind, List.map_append, hx.record, hf.record, hx.nonces,
      NonceTable.spent_append]
  nonces := by rw [Recorded.value_bind, hf.nonces, hx.nonces, List.foldl_append]

namespace Progress

variable {txs : Array Transaction} {b : Batch} {st : NonceTable} {p : Progress}

/-- Consuming an action that is next in turn passes it. -/
theorem passes_consumeRecorded {a : Action} (hturn : a.nonce = p.nonces.get a.sender) :
    Passes p.nonces (p.consumeRecorded txs a) [a] where
  record := by
    have hpassed : (p.consumeRecorded txs a).advances.map Advance.passed =
        [⟨a.sender, p.nonces.get a.sender⟩] := rfl
    rw [hpassed, ← hturn, NonceTable.spent, if_pos hturn, NonceTable.spent]
  nonces := by
    have hspend : p.nonces.spend a = p.nonces.advance a.sender := if_pos hturn
    rw [List.foldl_cons, hspend]
    rfl

/-- An authorization is passed if it is next in turn, and skipped otherwise. -/
theorem passes_authorizeRecorded (a : Action) (p : Progress) :
    Passes p.nonces (p.authorizeRecorded txs a) [a] := by
  unfold authorizeRecorded
  split
  · next hturn =>
    exact (passes_consumeRecorded hturn).bind (passes_pure rfl)
  · next hturn =>
    have hspend : p.nonces.spend a = p.nonces := if_neg hturn
    have hspent : p.nonces.spent [a] = [] := if_neg hturn
    exact ⟨hspent.symm, hspend.symm⟩

/-- Of the authorizations of a transaction those are passed, in order, that are next in turn. -/
theorem passes_foldlM_authorizeRecorded (as : List Action) (p : Progress) :
    Passes p.nonces (as.foldlM (authorizeRecorded txs) p) as := by
  induction as generalizing p with
  | nil => exact passes_pure rfl
  | cons a as ih =>
      rw [List.foldlM_cons]
      exact (passes_authorizeRecorded a p).bind (ih _)

/-- A transaction that is next in turn passes its main action, and its authorizations as far as they
are next in turn. -/
theorem passes_runRecorded {tx : Transaction} (hturn : tx.main.nonce = p.nonces.get tx.main.sender)
    (i : Nat) : Passes p.nonces (p.runRecorded txs i tx) tx.actions := by
  let q := { p with pending := p.pending.erase tx.main, scheduled := p.scheduled.push i }
  have hmain : Passes q.nonces (q.consumeRecorded txs tx.main) [tx.main] :=
    passes_consumeRecorded hturn
  exact hmain.bind (passes_foldlM_authorizeRecorded tx.auth _)

/-! ## What a run passes -/

/-- A step schedules a transaction and passes its actions. -/
theorem Faithful.passes_stepRecorded? (hf : Faithful b st p)
    (hlast : ∀ a ∈ b.actions, a.nonce < Nonce.last) {q : Recorded Progress}
    (hstep : p.stepRecorded? b.toArray = some q) :
    ∃ i tx, b[i]? = some tx ∧ q.value.scheduled.toList = p.scheduled.toList ++ [i] ∧
      Passes p.nonces q tx.actions := by
  rcases hf.eq_runRecorded hlast hstep with ⟨i, standing, rest, tx, hpop, htx, hturn, hactions, rfl⟩
  have hscheduled := ((hf.fresh.pop hpop).run (i := i) hturn hactions).scheduled
  refine ⟨i, tx, htx, ?_, passes_runRecorded (p := { p with waiting := rest }) hturn i⟩
  rw [value_runRecorded, hscheduled, Array.toList_push]

/-- A run passes the actions of the transactions that it schedules, in their order. -/
theorem Faithful.passes_finishRecorded (hf : Faithful b st p)
    (hlast : ∀ a ∈ b.actions, a.nonce < Nonce.last) :
    ∃ is, (p.finishRecorded b.toArray).value.scheduled.toList = p.scheduled.toList ++ is ∧
      Passes p.nonces (p.finishRecorded b.toArray) (b.pick is).actions := by
  fun_induction finishRecorded b.toArray p with
  | case1 p hnone => exact ⟨[], (List.append_nil _).symm, passes_pure rfl⟩
  | case2 p q hstep ih =>
      rcases hf.passes_stepRecorded? hlast hstep with ⟨i, tx, htx, hscheduled, hpasses⟩
      rcases ih (hf.step hlast (step?_of_stepRecorded? hstep)).1 with ⟨is, hrest, hpasses'⟩
      have hpick : b.pick (i :: is) = tx :: b.pick is := List.filterMap_cons_some htx
      refine ⟨i :: is, ?_, ?_⟩
      · rw [Recorded.value_bind, hrest, hscheduled, List.append_assoc, List.singleton_append]
      · rw [hpick, Batch.actions_cons]
        exact hpasses.bind hpasses'

end Progress

/-! ## Schedules -/

variable {b : Batch}

/-- What the scheduler advances are the actions that a replay of its schedule spends. -/
theorem passed_scheduleRecorded (hlast : ∀ a ∈ b.actions, a.nonce < Nonce.last) (st : NonceTable) :
    (b.scheduleRecorded st).advances.map Advance.passed =
      st.spent (b.schedule st).order.actions := by
  rcases (Progress.faithful_start b st).passes_finishRecorded hlast with ⟨is, hscheduled, hpasses⟩
  have horder : (b.schedule st).order = b.pick is := by
    rw [Batch.schedule_eq, ← Progress.value_finishRecorded, hscheduled]
    rfl
  have hadvances : (b.scheduleRecorded st).advances =
      ((Progress.start b st).finishRecorded b.toArray).advances := List.append_nil _
  rw [horder, hadvances]
  exact hpasses.record

/-- A greedy run takes positions of the batch only. -/
theorem Course.lt_length_of_mem_taken {st : NonceTable} {c : Course}
    (hrun : Relation.ReflTransGen (Course.Step b) ⟨[], st⟩ c) : ∀ i ∈ c.taken, i < b.length := by
  induction hrun with
  | refl => exact fun i hi => absurd hi List.not_mem_nil
  | tail _ hstep ih =>
      rcases hstep with ⟨i, tx, htakes⟩
      intro j hj
      rw [htakes.taken, List.mem_append, List.mem_singleton] at hj
      rcases hj with hj | rfl
      · exact ih j hj
      · exact (List.getElem?_eq_some_iff.1 htakes.waits.1).1

/-- Positions that are in the batch pick the transactions there. -/
theorem pick_eq_map_get {is : List Nat} (his : ∀ i ∈ is, i < b.length) :
    b.pick is = (is.pmap Fin.mk his).map b.get := by
  induction is with
  | nil => rfl
  | cons i is ih =>
      rcases List.forall_mem_cons.1 his with ⟨hi, his⟩
      have hpick : b.pick (i :: is) = b[i] :: b.pick is :=
        List.filterMap_cons_some (List.getElem?_eq_getElem hi)
      rw [hpick, ih his]
      rfl

/-- A schedule holds transactions of the batch from different places. -/
theorem exists_places_schedule (hlast : ∀ a ∈ b.actions, a.nonce < Nonce.last) (st : NonceTable) :
    ∃ places : List (Fin b.length), places.Nodup ∧ (b.schedule st).order = places.map b.get := by
  rcases Progress.reached_finish (b := b) (p := .start b st) .refl with ⟨hreached, _⟩
  rcases Progress.faithful_of_reached hlast hreached with ⟨hf, hcourse⟩
  have hbound := Course.lt_length_of_mem_taken hcourse
  refine ⟨List.pmap Fin.mk _ hbound, List.Nodup.pmap (fun _ _ _ _ => Fin.mk.inj) hf.distinct, ?_⟩
  rw [Batch.schedule_eq]
  exact pick_eq_map_get hbound

/-- A schedule accounts for the nonces.  It holds transactions of the batch from different places,
and its replay ends at the nonces at which the scheduler stops.  Every advance that the scheduler
makes passes an action that the replay spends, in the same order.  The nonces that are spent of an
account are those from its first to its last, one after another; and an account that no transaction
of the schedule names keeps its entry, or its lack of one. -/
theorem schedule_accounts_for_nonces (b : Batch) (st : NonceTable)
    (hlast : ∀ a ∈ b.actions, a.nonce < Nonce.last) :
    (∃ places : List (Fin b.length), places.Nodup ∧ (b.schedule st).order = places.map b.get) ∧
      st.replay? (b.schedule st).order = some (b.schedule st).nonces ∧
      (b.scheduleRecorded st).value = b.schedule st ∧
      (b.scheduleRecorded st).advances.map Advance.passed =
        st.spent (b.schedule st).order.actions ∧
      (∀ s, st.get s ≤ (b.schedule st).nonces.get s ∧
        ((st.spent (b.schedule st).order.actions).filter (·.sender = s)).map (·.nonce.toNat) =
          List.range' (st.get s).toNat
            (((b.schedule st).nonces.get s).toNat - (st.get s).toNat)) ∧
      ∀ s, s ∉ (b.schedule st).order.senders →
        (b.schedule st).nonces.find? s = st.find? s := by
  rcases settles_schedule hlast st with ⟨hsettles, hreplay⟩
  have horder (a : Action) (ha : a ∈ (b.schedule st).order.actions) : a.nonce < Nonce.last :=
    hlast a (Batch.actions_subset hsettles.subset ha)
  refine ⟨exists_places_schedule hlast st, hreplay, b.value_scheduleRecorded st,
    passed_scheduleRecorded hlast st, fun s => ⟨NonceTable.get_le_of_replay? hreplay s, ?_⟩,
    fun s hs => NonceTable.find?_eq_of_replay? hreplay horder hs⟩
  rw [NonceTable.nonces_spent horder, ← NonceTable.eq_foldl_spend_of_replay? hreplay]

theorem schedule_accounts_for_tangled :
    (∀ a ∈ tangled.actions, a.nonce < Nonce.last) ∧
      (∃ places : List (Fin tangled.length),
        places.Nodup ∧ (tangled.schedule ∅).order = places.map tangled.get) ∧
      NonceTable.replay? ∅ (tangled.schedule ∅).order = some (tangled.schedule ∅).nonces ∧
      (tangled.scheduleRecorded ∅).value = tangled.schedule ∅ ∧
      (tangled.scheduleRecorded ∅).advances.map Advance.passed =
        NonceTable.spent ∅ (tangled.schedule ∅).order.actions ∧
      (∀ s, NonceTable.get ∅ s ≤ (tangled.schedule ∅).nonces.get s ∧
        ((NonceTable.spent ∅ (tangled.schedule ∅).order.actions).filter (·.sender = s)).map
            (·.nonce.toNat) =
          List.range' (NonceTable.get ∅ s).toNat
            (((tangled.schedule ∅).nonces.get s).toNat - (NonceTable.get ∅ s).toNat)) ∧
      ∀ s, s ∉ (tangled.schedule ∅).order.senders →
        (tangled.schedule ∅).nonces.find? s = NonceTable.find? ∅ s :=
  ⟨by decide, schedule_accounts_for_nonces tangled ∅ (by decide)⟩

end BatchOrder
