import Mathlib.Control.Monad.Writer
import BatchOrder.Proofs.Independence

/-!
# No nonce is advanced from the last

A nonce that is the last would stay where it is when it is advanced, and the same action could be
consumed twice.  To see that this never happens, the scheduler is run once more with a record of
every advance that it makes to a nonce table: the account, its nonce before and its nonce after.
Without its record the recording run is the run of the scheduler, and the record accounts for the
nonces at which the run ends.  An advance is only made for an action that is next in turn, and no
action of the last nonce survives pruning.

Main results:

- Theorem `value_finishRecorded`: recording changes no result.
- Theorem `Progress.Faithful.climbs_finishRecorded`: a run of the scheduler climbs from its nonces
  to those at its end, by one in every advance.
- Theorem `plan_never_saturates`: so does the scheduling of every cluster of a plan.
-/

namespace BatchOrder

/-! ## Records -/

/-- An advance of the nonce of an account in a table. -/
structure Advance where
  account : Address
  before : Nonce
  after : Nonce

/-- The nonce was not the last, and the one that follows it has taken its place. -/
def Advance.Raises (e : Advance) : Prop :=
  e.before < Nonce.last ∧ e.after.toNat = e.before.toNat + 1

/-- Computations that record the advances that they make, in order. -/
def Recorded (α : Type) : Type := Writer (List Advance) α

namespace Recorded

variable {α β : Type}

instance : Monad Recorded := inferInstanceAs (Monad (Writer (List Advance)))

/-- The result without the record. -/
def value (x : Recorded α) : α := (WriterT.run x).1

/-- The record. -/
def advances (x : Recorded α) : List Advance := (WriterT.run x).2

@[simp] theorem value_pure (a : α) : (pure a : Recorded α).value = a := rfl

@[simp] theorem advances_pure (a : α) : (pure a : Recorded α).advances = [] := rfl

@[simp] theorem value_bind (x : Recorded α) (f : α → Recorded β) :
    (x >>= f).value = (f x.value).value := rfl

/-- The records of computations in a row follow one another. -/
@[simp] theorem advances_bind (x : Recorded α) (f : α → Recorded β) :
    (x >>= f).advances = x.advances ++ (f x.value).advances := rfl

/-- Without its record, a computation over a list goes through the results. -/
theorem value_foldlM {f : β → α → Recorded β} {g : β → α → β} (hfg : ∀ b x, (f b x).value = g b x)
    (xs : List α) (b : β) : (xs.foldlM f b).value = xs.foldl g b := by
  induction xs generalizing b with
  | nil => rfl
  | cons x xs ih => rw [List.foldlM_cons, value_bind, ih, hfg, List.foldl_cons]

end Recorded

namespace NonceTable

/-- Advance the nonce of an account and record it. -/
def advanceRecorded (st : NonceTable) (a : Address) : Recorded NonceTable :=
  let advanced := st.advance a
  WriterT.mk (advanced, [⟨a, st.get a, advanced.get a⟩])

/-- The advances of a record, made one after another, lead from one table to another: each starts
from the nonce that its account has, and raises it by one. -/
inductive Climbs : NonceTable → List Advance → NonceTable → Prop
  | nil (st : NonceTable) : Climbs st [] st
  | cons {st u : NonceTable} {e : Advance} {es : List Advance}
      (hbefore : e.before = st.get e.account) (hraises : e.Raises)
      (hrest : Climbs (st.set e.account e.after) es u) : Climbs st (e :: es) u

variable {st u v : NonceTable} {es es' : List Advance}

/-- Records that lead on from one another lead on together. -/
theorem Climbs.append (h : Climbs st es u) (h' : Climbs u es' v) : Climbs st (es ++ es') v := by
  induction h with
  | nil => exact h'
  | cons hbefore hraises _ ih => exact .cons hbefore hraises (ih h')

/-- Every advance of such a record raises a nonce by one. -/
theorem Climbs.raises (h : Climbs st es u) : ∀ e ∈ es, e.Raises := by
  induction h with
  | nil => exact List.forall_mem_nil _
  | cons _ hraises _ ih => exact List.forall_mem_cons.2 ⟨hraises, ih⟩

/-- An advance from below the last nonce raises it by one. -/
theorem climbs_advanceRecorded {a : Address} (hlast : st.get a < Nonce.last) :
    Climbs st (st.advanceRecorded a).advances (st.advance a) := by
  have hafter : (st.advance a).get a = Nonce.succ (st.get a) := by rw [get_advance, if_pos rfl]
  have hraises : Advance.Raises ⟨a, st.get a, (st.advance a).get a⟩ := by
    refine ⟨hlast, ?_⟩
    rw [UInt64.lt_iff_toNat_lt] at hlast
    simp only [hafter, Nonce.toNat_succ]
    omega
  have hset : st.set a ((st.advance a).get a) = st.advance a := by rw [hafter, advance]
  refine .cons rfl hraises ?_
  rw [hset]
  exact .nil _

end NonceTable

/-! ## Steps that record their advances -/

namespace Progress

/-- Advance the account of an action past it, with a record. -/
def consumeRecorded (txs : Array Transaction) (p : Progress) (a : Action) : Recorded Progress := do
  let nonces ← p.nonces.advanceRecorded a.sender
  let waiting := (p.watch.watchersOf a).foldl (rescoreAt txs nonces p.pending) p.waiting
  return { p with nonces, waiting }

/-- Consume an authorization if it is next in turn, with a record. -/
def authorizeRecorded (txs : Array Transaction) (p : Progress) (a : Action) :
    Recorded Progress :=
  if a.nonce = p.nonces.get a.sender then do
    let p ← p.consumeRecorded txs a
    return { p with watch := p.watch.erase a }
  else pure p

/-- Run the transaction at a position, with a record. -/
def runRecorded (txs : Array Transaction) (p : Progress) (i : Nat) (tx : Transaction) :
    Recorded Progress := do
  let p := { p with pending := p.pending.erase tx.main, scheduled := p.scheduled.push i }
  let p ← p.consumeRecorded txs tx.main
  tx.auth.foldlM (authorizeRecorded txs) p

/-- Take the transaction on top out of the heap and run it, if it can run, with a record. -/
def stepRecorded? (txs : Array Transaction) (p : Progress) : Option (Recorded Progress) :=
  (p.next? txs).map fun (i, tx, rest) => rest.runRecorded txs i tx

/-! ## Recording changes no result -/

/-- Recording does not change what consuming an authorization does. -/
theorem value_authorizeRecorded (txs : Array Transaction) (p : Progress) (a : Action) :
    (p.authorizeRecorded txs a).value = p.authorize txs a := by
  unfold authorizeRecorded authorize
  split <;> rfl

/-- Recording does not change what running a transaction does. -/
theorem value_runRecorded (txs : Array Transaction) (p : Progress) (i : Nat) (tx : Transaction) :
    (p.runRecorded txs i tx).value = p.run txs i tx :=
  Recorded.value_foldlM (value_authorizeRecorded txs) tx.auth _

/-- Recording does not change what a step does. -/
theorem map_value_stepRecorded? (txs : Array Transaction) (p : Progress) :
    (p.stepRecorded? txs).map Recorded.value = p.step? txs := by
  unfold stepRecorded? step?
  rw [Option.map_map]
  apply congrArg (Option.map · _)
  funext ⟨i, tx, rest⟩
  exact value_runRecorded ..

theorem step?_of_stepRecorded? {txs : Array Transaction} {p : Progress} {q : Recorded Progress}
    (h : p.stepRecorded? txs = some q) : p.step? txs = some q.value := by
  rw [← map_value_stepRecorded?, h, Option.map_some]

/-- Take steps for as long as there is one to take, with a record. -/
def finishRecorded (txs : Array Transaction) (p : Progress) : Recorded Progress :=
  match _h : p.stepRecorded? txs with
  | none => pure p
  | some q => do
    let _ ← q
    finishRecorded txs q.value
termination_by p.waiting.size
decreasing_by have := size_of_step? (step?_of_stepRecorded? _h); omega

/-- Recording does not change a run. -/
theorem value_finishRecorded (txs : Array Transaction) (p : Progress) :
    (p.finishRecorded txs).value = p.finish txs := by
  fun_induction finish txs p with
  | case1 p hnone =>
      rw [← map_value_stepRecorded?, Option.map_eq_none_iff] at hnone
      rw [finishRecorded]
      split
      · rfl
      · next hsome => rw [hnone] at hsome; cases hsome
  | case2 p q hstep ih =>
      rw [← map_value_stepRecorded?] at hstep
      rcases Option.map_eq_some_iff.1 hstep with ⟨r, hr, rfl⟩
      rw [finishRecorded]
      split
      · next hnone => rw [hr] at hnone; cases hnone
      · next r' hr' =>
        rcases Option.some.inj (hr.symm.trans hr') with rfl
        exact ih

/-! ## Every advance is by one -/

/-- The record of a computation leads from the nonces of a state to those of its result. -/
def Climbs (p : Progress) (x : Recorded Progress) : Prop :=
  NonceTable.Climbs p.nonces x.advances x.value.nonces

theorem climbs_pure {p q : Progress} (h : q.nonces = p.nonces) : p.Climbs (pure q) := by
  unfold Climbs
  rw [Recorded.advances_pure, Recorded.value_pure, h]
  exact .nil _

/-- Computations in a row climb if each of them does. -/
theorem Climbs.bind {p : Progress} {x : Recorded Progress} {f : Progress → Recorded Progress}
    (hx : p.Climbs x) (hf : x.value.Climbs (f x.value)) : p.Climbs (x >>= f) :=
  NonceTable.Climbs.append hx hf

/-- A computation over a list climbs if every part of it does. -/
theorem climbs_foldlM {f : Progress → Action → Recorded Progress} {as : List Action}
    (hf : ∀ a ∈ as, ∀ p, Climbs p (f p a)) (p : Progress) : p.Climbs (as.foldlM f p) := by
  induction as generalizing p with
  | nil => exact climbs_pure rfl
  | cons a as ih =>
      rw [List.foldlM_cons]
      exact (hf a List.mem_cons_self p).bind (ih (fun b hb => hf b (List.mem_cons_of_mem _ hb)) _)

variable {txs : Array Transaction} {b : Batch} {st : NonceTable} {p : Progress}

/-- Consuming an action that is next in turn and does not have the last nonce climbs. -/
theorem climbs_consumeRecorded {a : Action} (hturn : a.nonce = p.nonces.get a.sender)
    (hlast : a.nonce < Nonce.last) : p.Climbs (p.consumeRecorded txs a) :=
  (NonceTable.climbs_advanceRecorded (hturn ▸ hlast)).append (.nil _)

/-- An authorization is only consumed when it is next in turn. -/
theorem climbs_authorizeRecorded {a : Action} (hlast : a.nonce < Nonce.last) (p : Progress) :
    p.Climbs (p.authorizeRecorded txs a) := by
  unfold authorizeRecorded
  split
  · next hturn => exact (climbs_consumeRecorded hturn hlast).bind (climbs_pure rfl)
  · exact climbs_pure rfl

/-- Running a transaction that is next in turn, without last nonces, climbs. -/
theorem climbs_runRecorded {tx : Transaction} (hturn : tx.main.nonce = p.nonces.get tx.main.sender)
    (hlast : ∀ a ∈ tx.actions, a.nonce < Nonce.last) (i : Nat) :
    p.Climbs (p.runRecorded txs i tx) := by
  have hmain : tx.main.nonce < Nonce.last := hlast _ List.mem_cons_self
  have hauth (a : Action) (ha : a ∈ tx.auth) : a.nonce < Nonce.last :=
    hlast a (List.mem_cons_of_mem _ ha)
  let q := { p with pending := p.pending.erase tx.main, scheduled := p.scheduled.push i }
  have hconsume : q.Climbs (q.consumeRecorded txs tx.main) := climbs_consumeRecorded hturn hmain
  exact hconsume.bind (climbs_foldlM (fun a ha => climbs_authorizeRecorded (hauth a ha)) _)

/-- A step runs the transaction that leaves the heap.  Its main action is next in turn, since its
stored score is fresh. -/
theorem Faithful.eq_runRecorded (hf : Faithful b st p)
    (hlast : ∀ a ∈ b.actions, a.nonce < Nonce.last) {q : Recorded Progress}
    (hstep : p.stepRecorded? b.toArray = some q) :
    ∃ i standing rest tx, p.waiting.pop? = some ((i, standing), rest) ∧ b[i]? = some tx ∧
      tx.main.nonce = p.nonces.get tx.main.sender ∧ (∀ a ∈ tx.actions, a.nonce < Nonce.last) ∧
      q = runRecorded b.toArray { p with waiting := rest } i tx := by
  rcases Option.map_eq_some_iff.1 hstep with ⟨⟨i, tx, _⟩, hnext, rfl⟩
  rcases next?_eq_some_iff.1 hnext with ⟨standing, rest, hpop, hrun, htx, rfl⟩
  rw [List.getElem?_toArray] at htx
  have hmains (tx : Transaction) (htx : tx ∈ b) : tx.main.nonce < Nonce.last :=
    hlast _ (Batch.main_mem_actions htx)
  have hactions (a : Action) (ha : a ∈ tx.actions) : a.nonce < Nonce.last :=
    hlast a (Batch.actions_subset_of_mem (List.mem_of_getElem? htx) ha)
  exact ⟨i, standing, rest, tx, hpop, htx, hf.turn_of_pop hmains hpop hrun htx, hactions, rfl⟩

/-- A step of the scheduler climbs. -/
theorem Faithful.climbs_stepRecorded? (hf : Faithful b st p)
    (hlast : ∀ a ∈ b.actions, a.nonce < Nonce.last) {q : Recorded Progress}
    (hstep : p.stepRecorded? b.toArray = some q) : p.Climbs q := by
  rcases hf.eq_runRecorded hlast hstep with ⟨i, standing, rest, tx, _, _, hturn, hactions, rfl⟩
  exact climbs_runRecorded (p := { p with waiting := rest }) hturn hactions i

/-- A whole run of the scheduler climbs from its nonces to those at its end. -/
theorem Faithful.climbs_finishRecorded (hf : Faithful b st p)
    (hlast : ∀ a ∈ b.actions, a.nonce < Nonce.last) : p.Climbs (p.finishRecorded b.toArray) := by
  fun_induction finishRecorded b.toArray p with
  | case1 p hnone => exact climbs_pure rfl
  | case2 p q hstep ih =>
      have hnext := (hf.step hlast (step?_of_stepRecorded? hstep)).1
      exact (hf.climbs_stepRecorded? hlast hstep).bind (ih hnext)

end Progress

/-! ## Schedules with a record -/

namespace Batch

/-- Schedule a batch, with a record. -/
def scheduleRecorded (b : Batch) (st : NonceTable) : Recorded Schedule := do
  let last ← (Progress.start b st).finishRecorded b.toArray
  return ⟨last.order b.toArray, last.nonces⟩

/-- Recording does not change the schedule. -/
theorem value_scheduleRecorded (b : Batch) (st : NonceTable) :
    (b.scheduleRecorded st).value = b.schedule st := by
  unfold scheduleRecorded schedule
  rw [Recorded.value_bind, Progress.value_finishRecorded, Recorded.value_pure]

/-- The record of a schedule leads from the nonces at its start to those at its end. -/
theorem climbs_scheduleRecorded {b : Batch} (hlast : ∀ a ∈ b.actions, a.nonce < Nonce.last)
    (st : NonceTable) :
    st.Climbs (b.scheduleRecorded st).advances (b.scheduleRecorded st).value.nonces :=
  ((Progress.faithful_start b st).climbs_finishRecorded hlast).append (.nil _)

end Batch

/-- Planning never advances an account from the last nonce.  No action with the last nonce survives
pruning; and from whatever nonces a cluster of the plan is scheduled, every advance that is made
raises the nonce of its account by one. -/
theorem plan_never_saturates (b : Batch) (provider : Address → Nonce) :
    (∀ tx ∈ b.prune (b.givenNonces provider), ∀ a ∈ tx.actions, a.nonce < Nonce.last) ∧
      ∀ c ∈ b.plannedClusters provider, ∀ st : NonceTable,
        (c.scheduleRecorded st).value = c.schedule st ∧
          st.Climbs (c.scheduleRecorded st).advances (c.schedule st).nonces ∧
          ∀ e ∈ (c.scheduleRecorded st).advances, e.before < Nonce.last ∧
            e.after.toNat = e.before.toNat + 1 := by
  constructor
  · intro tx htx a ha
    exact lt_last_of_mem_prune (List.mem_flatMap.2 ⟨tx, htx, ha⟩)
  · intro c hc st
    have hlast := (separate_clusters_prune b (b.givenNonces provider)).lt_last c hc
    have hclimbs := Batch.climbs_scheduleRecorded hlast st
    rw [Batch.value_scheduleRecorded] at hclimbs
    exact ⟨c.value_scheduleRecorded st, hclimbs, hclimbs.raises⟩

end BatchOrder
