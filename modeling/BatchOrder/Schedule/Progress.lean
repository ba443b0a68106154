import BatchOrder.Event
import BatchOrder.KeyedHeap
import BatchOrder.Schedule.Score
import BatchOrder.Schedule.WatchList

/-!
# Scheduling a cluster

The transactions of a cluster wait in a heap under their scores. A step takes the one on top, if it
can run, advances the nonces that it consumes, and scores anew those that watch the consumed
actions. Scheduling stops when the one on top cannot run, which by the order of standings means that
none can.

Main results:

- Theorem `size_of_step?`: every step takes one transaction out of the heap, so scheduling ends.
- Theorem `value_finishLogged`: announcing what is scheduled does not change a run.
- Theorem `events_finishLogged`: a run announces, in order, the transactions that it schedules.
- Theorem `events_scheduleLogged`: the whole report of a schedule.
-/

namespace BatchOrder

/-- How far the scheduling of a batch has come. -/
structure Progress where
  /-- The positions of the transactions that wait, under their scores. -/
  waiting : KeyedHeap Nat Standing Standing.compare
  /-- Who has to be scored anew for an action. -/
  watch : WatchList
  /-- The main actions of the transactions that wait. -/
  pending : Std.HashSet Action
  /-- The nonces as they are now. -/
  nonces : NonceTable
  /-- The positions of the transactions scheduled, in order. -/
  scheduled : Array Nat

namespace Progress

/-- Everything waits. -/
def start (b : Batch) (st : NonceTable) : Progress where
  waiting :=
    let pending := Std.HashSet.ofList b.mains
    b.zipIdx.foldl (fun heap e => (heap.add e.2 (e.1.score st pending)).2) ∅
  watch := WatchList.ofBatch b
  pending := Std.HashSet.ofList b.mains
  nonces := st
  scheduled := #[]

/-- Score the transaction at a position anew, if it waits. -/
def rescoreAt (txs : Array Transaction) (st : NonceTable) (pending : Std.HashSet Action)
    (heap : KeyedHeap Nat Standing Standing.compare) (i : Nat) :
    KeyedHeap Nat Standing Standing.compare :=
  match txs[i]? with
  | some tx => (heap.update i (tx.score st pending)).2
  | none => heap

/-- Advance the account of an action past it, and score anew who watches it. -/
def consume (txs : Array Transaction) (p : Progress) (a : Action) : Progress :=
  let { waiting, watch, pending, nonces, scheduled } := p
  let nonces := nonces.advance a.sender
  let waiting := (watch.watchersOf a).foldl (rescoreAt txs nonces pending) waiting
  { waiting, watch, pending, nonces, scheduled }

/-- Consume an authorization if it is next in turn. Nobody needs to watch it afterwards. -/
def authorize (txs : Array Transaction) (p : Progress) (a : Action) : Progress :=
  if a.nonce = p.nonces.get a.sender then
    let p := p.consume txs a
    { p with watch := p.watch.erase a }
  else p

/-- Run the transaction at a position, which has left the heap: its main action first and then its
authorizations in order. -/
def run (txs : Array Transaction) (p : Progress) (i : Nat) (tx : Transaction) : Progress :=
  let p :=
    { p with pending := p.pending.erase tx.main, scheduled := p.scheduled.push i }
  tx.auth.foldl (authorize txs) (p.consume txs tx.main)

/-- What comes next: the position and the transaction on top of the heap, if it can run, with
everything as it is once the transaction has left the heap. -/
def next? (txs : Array Transaction) (p : Progress) : Option (Nat × Transaction × Progress) :=
  match p.waiting.pop? with
  | none => none
  | some ((i, standing), rest) =>
    if standing.runnable then txs[i]?.map fun tx => (i, tx, { p with waiting := rest }) else none

/-- Take the transaction on top out of the heap and run it, if it can run. -/
def step? (txs : Array Transaction) (p : Progress) : Option Progress :=
  (p.next? txs).map fun (i, tx, rest) => rest.run txs i tx

/-! ## Termination -/

/-- Scoring a transaction anew keeps how many wait. -/
theorem size_rescoreAt (txs : Array Transaction) (st : NonceTable) (pending : Std.HashSet Action)
    (heap : KeyedHeap Nat Standing Standing.compare) (i : Nat) :
    (rescoreAt txs st pending heap i).size = heap.size := by
  unfold rescoreAt
  split <;> simp

/-- Scoring several transactions anew keeps how many wait. -/
theorem size_foldl_rescoreAt (txs : Array Transaction) (st : NonceTable)
    (pending : Std.HashSet Action) (is : List Nat)
    (heap : KeyedHeap Nat Standing Standing.compare) :
    (is.foldl (rescoreAt txs st pending) heap).size = heap.size := by
  induction is generalizing heap with
  | nil => rfl
  | cons i is ih => rw [List.foldl_cons, ih, size_rescoreAt]

/-- Consuming an action keeps how many wait. -/
theorem size_consume (txs : Array Transaction) (p : Progress) (a : Action) :
    (p.consume txs a).waiting.size = p.waiting.size :=
  size_foldl_rescoreAt ..

/-- Consuming an authorization keeps how many wait. -/
theorem size_authorize (txs : Array Transaction) (p : Progress) (a : Action) :
    (p.authorize txs a).waiting.size = p.waiting.size := by
  unfold authorize
  split
  · exact size_consume ..
  · rfl

/-- Running a transaction that has left the heap keeps how many wait. -/
theorem size_run (txs : Array Transaction) (p : Progress) (i : Nat) (tx : Transaction) :
    (p.run txs i tx).waiting.size = p.waiting.size := by
  have (as : List Action) (q : Progress) :
      (as.foldl (authorize txs) q).waiting.size = q.waiting.size := by
    induction as generalizing q with
    | nil => rfl
    | cons a as ih => rw [List.foldl_cons, ih, size_authorize]
  unfold run
  rw [this, size_consume]

/-- What comes next leaves the heap, was on top of it, can run, and stands at its position. -/
theorem next?_eq_some_iff {txs : Array Transaction} {p q : Progress} {i : Nat} {tx : Transaction} :
    p.next? txs = some (i, tx, q) ↔
      ∃ standing rest, p.waiting.pop? = some ((i, standing), rest) ∧ standing.runnable ∧
        txs[i]? = some tx ∧ q = { p with waiting := rest } := by
  unfold next?
  constructor
  · intro hnext
    split at hnext
    · cases hnext
    · next j standing rest hpop =>
      split at hnext
      · next hrun =>
        obtain ⟨tx', htx, heq⟩ := Option.map_eq_some_iff.1 hnext
        cases heq
        exact ⟨standing, rest, hpop, hrun, htx, rfl⟩
      · cases hnext
  · rintro ⟨standing, rest, hpop, hrun, htx, rfl⟩
    simp [hpop, hrun, htx]

/-- A step runs what comes next. -/
theorem step?_eq_some_iff_next? {txs : Array Transaction} {p q : Progress} :
    p.step? txs = some q ↔
      ∃ i tx rest, p.next? txs = some (i, tx, rest) ∧ rest.run txs i tx = q := by
  simp [step?]

/-- Once the next transaction has left the heap, one less waits. -/
theorem size_of_next? {txs : Array Transaction} {p q : Progress} {i : Nat} {tx : Transaction}
    (h : p.next? txs = some (i, tx, q)) : q.waiting.size + 1 = p.waiting.size := by
  obtain ⟨_, _, hpop, _, _, rfl⟩ := next?_eq_some_iff.1 h
  exact KeyedHeap.size_pop? hpop

/-- After a step one transaction less waits. -/
theorem size_of_step? {txs : Array Transaction} {p q : Progress} (h : p.step? txs = some q) :
    q.waiting.size + 1 = p.waiting.size := by
  obtain ⟨i, tx, rest, hnext, rfl⟩ := step?_eq_some_iff_next?.1 h
  rw [size_run]
  exact size_of_next? hnext

/-- Take steps for as long as there is one to take. -/
def finish (txs : Array Transaction) (p : Progress) : Progress :=
  match _h : p.step? txs with
  | none => p
  | some q => finish txs q
termination_by p.waiting.size
decreasing_by have := size_of_step? _h; omega

/-- Take steps for as long as there is one to take, and announce every transaction before it is
run. -/
def finishLogged (txs : Array Transaction) (p : Progress) : Logged Progress :=
  match _h : p.next? txs with
  | none => pure p
  | some (i, tx, rest) => do
    Logged.emit (.scheduling tx.main)
    finishLogged txs (rest.run txs i tx)
termination_by p.waiting.size
decreasing_by have := size_of_next? _h; rw [size_run]; omega

/-- The transactions scheduled, in order. -/
def order (txs : Array Transaction) (p : Progress) : Batch :=
  p.scheduled.toList.filterMap (txs[·]?)

end Progress

/-! ## Schedules -/

/-- An order for a batch with the nonces after its execution. -/
structure Schedule where
  order : Batch
  nonces : NonceTable

/-- Schedule a batch from the given nonces. A transaction that can never run stays out. -/
def Batch.schedule (b : Batch) (st : NonceTable) : Schedule :=
  let txs := b.toArray
  let last := (Progress.start b st).finish txs
  ⟨last.order txs, last.nonces⟩

/-- The schedule of a batch, with a report of every transaction when it is scheduled, and of those
left over if there are any. -/
def Batch.scheduleLogged (b : Batch) (st : NonceTable) : Logged Schedule := do
  let txs := b.toArray
  let last ← (Progress.start b st).finishLogged txs
  let order := last.order txs
  Logged.emitIf (order.length < b.length) (.stalled order.length (b.length - order.length))
  return ⟨order, last.nonces⟩

/-! ## Reports -/

namespace Progress

variable {txs : Array Transaction} {p q : Progress}

/-- If nothing comes next, a run is over. -/
theorem finish_of_step?_eq_none (hnone : p.step? txs = none) : p.finish txs = p := by
  rw [finish]
  split
  · rfl
  · next hsome =>
    rw [hnone] at hsome
    cases hsome

/-- A run goes on from where its first step leads. -/
theorem finish_of_step?_eq_some (hsome : p.step? txs = some q) : p.finish txs = q.finish txs := by
  rw [finish]
  split
  · next hnone =>
    rw [hsome] at hnone
    cases hnone
  · next hsome' => rw [Option.some.inj (hsome.symm.trans hsome')]

/-- Announcing what is scheduled does not change the run. -/
theorem value_finishLogged (txs : Array Transaction) (p : Progress) :
    (p.finishLogged txs).value = p.finish txs := by
  fun_induction finishLogged txs p with
  | case1 p hnone =>
    have hstop : p.step? txs = none := by rw [step?, hnone, Option.map_none]
    rw [Logged.value_pure, finish_of_step?_eq_none hstop]
  | case2 p i tx rest hnext ih =>
    have hstep : p.step? txs = some (rest.run txs i tx) := by rw [step?, hnext, Option.map_some]
    rw [Logged.value_bind, ih, finish_of_step?_eq_some hstep]

/-- Consuming an authorization schedules nothing. -/
theorem scheduled_authorize (txs : Array Transaction) (p : Progress) (a : Action) :
    (p.authorize txs a).scheduled = p.scheduled := by
  unfold authorize
  split
  · rfl
  · rfl

/-- Running a transaction puts its position after those scheduled before. -/
theorem scheduled_run (txs : Array Transaction) (p : Progress) (i : Nat) (tx : Transaction) :
    (p.run txs i tx).scheduled = p.scheduled.push i := by
  have hauth (as : List Action) (q : Progress) :
      (as.foldl (authorize txs) q).scheduled = q.scheduled := by
    induction as generalizing q with
    | nil => rfl
    | cons a as ih => rw [List.foldl_cons, ih, scheduled_authorize]
  unfold run
  rw [hauth]
  rfl

/-- Running a transaction puts it after those scheduled before. -/
theorem order_run {i : Nat} {tx : Transaction} (htx : txs[i]? = some tx) (p : Progress) :
    (p.run txs i tx).order txs = p.order txs ++ [tx] := by
  unfold order
  rw [scheduled_run, Array.toList_push, List.filterMap_append]
  simp [htx]

/-- A run announces, in order, what it adds to the transactions scheduled before. -/
theorem events_finishLogged (txs : Array Transaction) (p : Progress) :
    (p.order txs).mains.map Event.scheduling ++ (p.finishLogged txs).events =
      ((p.finish txs).order txs).mains.map Event.scheduling := by
  rw [← value_finishLogged]
  fun_induction finishLogged txs p with
  | case1 p hnone => exact List.append_nil _
  | case2 p i tx rest hnext ih =>
    obtain ⟨_, _, _, _, htx, rfl⟩ := next?_eq_some_iff.1 hnext
    rw [order_run htx] at ih
    rw [Logged.value_bind, Logged.events_bind, ← ih]
    simp [Batch.mains, order]

end Progress

/-- Reporting does not change the schedule. -/
@[simp] theorem Batch.value_scheduleLogged (b : Batch) (st : NonceTable) :
    (b.scheduleLogged st).value = b.schedule st := by
  unfold scheduleLogged schedule
  simp only [Logged.value_bind, Logged.value_pure, Progress.value_finishLogged]

/-- The report of a schedule: the main actions in the order of the schedule, and then how many
transactions are left over, if any are. -/
theorem Batch.events_scheduleLogged (b : Batch) (st : NonceTable) :
    (b.scheduleLogged st).events = (b.schedule st).order.mains.map Event.scheduling ++
      if (b.schedule st).order.length < b.length then
        [.stalled (b.schedule st).order.length (b.length - (b.schedule st).order.length)]
      else [] := by
  have hannounced := Progress.events_finishLogged b.toArray (Progress.start b st)
  unfold scheduleLogged schedule
  simp only [Logged.events_bind, Logged.events_emitIf, Logged.events_pure, List.append_nil,
    Progress.value_finishLogged, decide_eq_true_eq, ← hannounced]
  rfl

end BatchOrder
