import Mathlib.Logic.Relation
import BatchOrder.Proofs.Schedule.Rescoring

/-!
# The scheduler is greedy

A greedy run scores every waiting transaction from scratch before each choice, takes a runnable one
that no other outranks, and stops when none is runnable.  It needs neither heap nor watch list.
Every run of the scheduler is such a run: the scores that it keeps are those taken from scratch, and
its choices and its stop are the greedy ones.

Main results:

- Theorem `Progress.Faithful.step`: one step of the scheduler keeps the invariant and is a greedy
  choice.
- Theorem `Progress.Faithful.step?_eq_none_iff`: the scheduler stops when no greedy choice is left.
- Theorem `schedule_is_greedy`: every run of the scheduler is a greedy run.
-/

namespace BatchOrder

/-- Nothing that can run stands below or level with what cannot. -/
theorem Standing.runnable_eq_false_of_compare {x y : Standing} (hxy : Standing.compare x y ≠ .gt)
    (hy : y.runnable = false) : x.runnable = false := by
  by_contra hx
  apply hxy
  have hrunnable : compareOn Standing.runnable x y = .gt := by
    rw [Bool.not_eq_false] at hx
    rw [compareOn, hx, hy]
    rfl
  rw [Standing.compare, compareLex, hrunnable]
  rfl

/-- The transactions at given positions of a batch, in the order of the positions. -/
def Batch.pick (b : Batch) (is : List Nat) : Batch := is.filterMap fun i => b[i]?

/-! ## Greedy runs -/

/-- How far a greedy run has come: the positions taken so far, in order, and the nonces. -/
structure Course where
  taken : List Nat
  nonces : NonceTable

namespace Course

variable (b : Batch)

/-- A position of the batch that is not taken, with the transaction there. -/
def Waits (c : Course) (i : Nat) (tx : Transaction) : Prop := b[i]? = some tx ∧ i ∉ c.taken

/-- The main actions of the transactions that are not taken. -/
def pending (c : Course) : Std.HashSet Action :=
  .ofList ((b.zipIdx.filter fun e => e.2 ∉ c.taken).map fun e => e.1.main)

/-- The score of a transaction, taken from scratch. -/
def score (c : Course) (tx : Transaction) : Standing := tx.score c.nonces (c.pending b)

/-- A greedy choice: the transaction waits and is runnable, and no other that waits outranks it.  It
is executed and its position taken. -/
structure Takes (c c' : Course) (i : Nat) (tx : Transaction) : Prop where
  waits : c.Waits b i tx
  runnable : (c.score b tx).runnable
  greatest : ∀ j tx', c.Waits b j tx' → Standing.compare (c.score b tx') (c.score b tx) ≠ .gt
  taken : c'.taken = c.taken ++ [i]
  executes : c.nonces.execute? tx = some c'.nonces

/-- One greedy choice is made. -/
def Step (c c' : Course) : Prop := ∃ i tx, c.Takes b c' i tx

/-- No waiting transaction is runnable. -/
def Stuck (c : Course) : Prop := ∀ i tx, c.Waits b i tx → (c.score b tx).runnable = false

/-- An action is pending if it is the main action of a transaction that is not taken. -/
theorem mem_pending {b : Batch} {c : Course} {a : Action} :
    a ∈ c.pending b ↔ ∃ i tx, c.Waits b i tx ∧ tx.main = a := by
  unfold pending Waits
  rw [Std.HashSet.mem_ofList, List.contains_iff_mem, List.mem_map]
  constructor
  · rintro ⟨⟨tx, i⟩, hmem, hmain⟩
    rcases List.mem_filter.1 hmem with ⟨hzip, hout⟩
    exact ⟨i, tx, ⟨List.mem_zipIdx_iff_getElem?.1 hzip, by simpa using hout⟩, hmain⟩
  · rintro ⟨i, tx, ⟨hi, hout⟩, hmain⟩
    exact ⟨(tx, i), List.mem_filter.2 ⟨List.mem_zipIdx_iff_getElem?.2 hi, by simpa using hout⟩,
      hmain⟩

end Course

/-! ## The invariant of the scheduler -/

namespace Progress

variable {b : Batch} {st : NonceTable} {p q : Progress}

/-- The greedy run that the scheduler follows. -/
def course (p : Progress) : Course := ⟨p.scheduled.toList, p.nonces⟩

/-- One step leads from a state of the scheduler to another. -/
def Advances (b : Batch) (p q : Progress) : Prop := p.step? b.toArray = some q

/-- The states that the scheduler passes through from its start. -/
def Reached (b : Batch) (st : NonceTable) (p : Progress) : Prop :=
  Relation.ReflTransGen (Advances b) (start b st) p

/-- The invariant of the scheduler: the heap holds a fresh score for exactly the positions that are
not scheduled, the pending actions are the main actions not scheduled, and what is scheduled replays
to the present nonces. -/
structure Faithful (b : Batch) (st : NonceTable) (p : Progress) : Prop where
  fresh : Fresh b p
  waits : ∀ i, (p.waiting.value? i).isSome ↔ i < b.length ∧ i ∉ p.scheduled.toList
  pending : ∀ a, a ∈ p.pending ↔ a ∈ b.mains ∧ a ∉ (b.pick p.scheduled.toList).mains
  distinct : p.scheduled.toList.Nodup
  replays : st.replay? (b.pick p.scheduled.toList) = some p.nonces

/-! ### The start -/

/-- A heap that scored transactions are added to, from a position on, holds them under their scores
and keeps the others. -/
theorem scored_foldl_add (st : NonceTable) (pending : Std.HashSet Action) (txs : Batch) (n : Nat)
    {heap : KeyedHeap Nat Standing Standing.compare} (hi : heap.Indexed) (ho : heap.Ordered)
    (hnew : ∀ i, n ≤ i → heap.value? i = none) :
    let filled := (txs.zipIdx n).foldl (fun heap e => (heap.add e.2 (e.1.score st pending)).2) heap
    filled.Indexed ∧ filled.Ordered ∧ ∀ i, filled.value? i =
      if n ≤ i then txs[i - n]?.map fun tx => tx.score st pending else heap.value? i := by
  induction txs generalizing n heap with
  | nil =>
      refine ⟨hi, ho, fun i => ?_⟩
      split
      · next hni => exact hnew i hni
      · rfl
  | cons tx txs ih =>
      rcases hi.add n (tx.score st pending) with ⟨hadd, hvalue⟩
      have hnew' (i : Nat) (hni : n + 1 ≤ i) :
          (heap.add n (tx.score st pending)).2.value? i = none := by
        have hne : n ≠ i := by omega
        rw [hvalue, hnew i (by omega)]
        simp [hne]
      rcases ih (n + 1) hadd (ho.add n _) hnew' with ⟨hi', ho', hvalue'⟩
      refine ⟨hi', ho', fun i => (hvalue' i).trans ?_⟩
      rw [hvalue, hnew n (Nat.le_refl n)]
      by_cases hin : n = i
      · subst hin
        simp
      · by_cases hlt : n + 1 ≤ i
        · have hsub : i - n = (i - (n + 1)) + 1 := by omega
          rw [if_pos hlt, if_pos (by omega), hsub, List.getElem?_cons_succ]
        · have hni : ¬ n ≤ i := by omega
          simp [hin, hni, hlt]

/-- At its start the scheduler has the invariant. -/
theorem faithful_start (b : Batch) (st : NonceTable) : Faithful b st (start b st) := by
  obtain ⟨hi, ho, hvalue⟩ := scored_foldl_add st (Std.HashSet.ofList b.mains) b 0
    KeyedHeap.indexed_empty KeyedHeap.ordered_empty fun i _ => KeyedHeap.value?_empty i
  have hwaiting (i : Nat) : (start b st).waiting.value? i =
      b[i]?.map fun tx => tx.score st (Std.HashSet.ofList b.mains) := by
    have := hvalue i
    rwa [if_pos (Nat.zero_le i)] at this
  refine ⟨⟨⟨hi, ho, ?_⟩, fun _ _ => rfl⟩, ?_, ?_, List.nodup_nil, rfl⟩
  · intro i x hx
    rw [hwaiting] at hx
    rcases Option.map_eq_some_iff.1 hx with ⟨tx, htx, hscore⟩
    exact ⟨tx, htx, hscore.symm⟩
  · intro i
    rw [hwaiting, Option.isSome_map]
    simp [start]
  · intro a
    simp [start, Batch.pick, Batch.mains, Std.HashSet.mem_ofList]

/-! ### Scores from scratch -/

theorem pick_append (b : Batch) (is js : List Nat) : b.pick (is ++ js) = b.pick is ++ b.pick js :=
  List.filterMap_append ..

theorem mem_pick {b : Batch} {is : List Nat} {tx : Transaction} :
    tx ∈ b.pick is ↔ ∃ i ∈ is, b[i]? = some tx := List.mem_filterMap

/-- The accounts of all scheduled main actions have passed them. -/
theorem Faithful.lt_get (hf : Faithful b st p) (hlast : ∀ tx ∈ b, tx.main.nonce < Nonce.last)
    {a : Action} (ha : a ∈ (b.pick p.scheduled.toList).mains) :
    a.nonce < p.nonces.get a.sender := by
  rcases List.mem_map.1 ha with ⟨tx, htx, rfl⟩
  refine NonceTable.lt_get_of_mem_replay? hf.replays htx (hlast tx ?_)
  rcases mem_pick.1 htx with ⟨i, _, hi⟩
  exact List.mem_of_getElem? hi

/-- The pending actions of the scheduler and those of the greedy run may differ in a repeated main
action, but never in one that is next in turn; so they give the same scores. -/
theorem Faithful.score_eq (hf : Faithful b st p) (hlast : ∀ tx ∈ b, tx.main.nonce < Nonce.last)
    (tx : Transaction) : p.course.score b tx = tx.score p.nonces p.pending := by
  have hpending (a : Action) (hturn : a.nonce = p.nonces.get a.sender) :
      a ∈ p.course.pending b ↔ a ∈ p.pending := by
    have hout : a ∉ (b.pick p.scheduled.toList).mains := by
      intro ha
      have hlt := hf.lt_get hlast ha
      rw [← hturn] at hlt
      exact UInt64.lt_irrefl _ hlt
    rw [hf.pending, Course.mem_pending]
    constructor
    · rintro ⟨i, tx', ⟨hi, _⟩, rfl⟩
      exact ⟨List.mem_map_of_mem (List.mem_of_getElem? hi), hout⟩
    · rintro ⟨ha, _⟩
      rcases List.mem_map.1 ha with ⟨tx', htx', rfl⟩
      rcases List.getElem?_of_mem htx' with ⟨i, hi⟩
      exact ⟨i, tx', ⟨hi, fun hmem => hout (List.mem_map_of_mem (mem_pick.2 ⟨i, hmem, hi⟩))⟩, rfl⟩
  have hcolliding : (tx.auth.countP fun a =>
      a.nonce = p.nonces.get a.sender && (p.course.pending b).contains a) =
      tx.auth.countP fun a => a.nonce = p.nonces.get a.sender && p.pending.contains a := by
    apply List.countP_congr
    intro a _
    simp only [Bool.and_eq_true, decide_eq_true_eq, Std.HashSet.contains_iff_mem]
    exact and_congr_right (hpending a)
  have hnonces : p.course.nonces = p.nonces := rfl
  unfold Course.score Transaction.score
  rw [hnonces, hcolliding]

/-! ### One step -/

/-- Everything that a step does: it pops a waiting position whose transaction is next in turn, and
runs that transaction. -/
theorem step?_eq_some_iff : p.step? b.toArray = some q ↔
    ∃ i standing rest tx, p.waiting.pop? = some ((i, standing), rest) ∧ standing.runnable ∧
      b[i]? = some tx ∧ q = run b.toArray { p with waiting := rest } i tx := by
  rw [step?_eq_some_iff_next?]
  constructor
  · rintro ⟨i, tx, _, hnext, rfl⟩
    rcases next?_eq_some_iff.1 hnext with ⟨standing, rest, hpop, hrun, htx, rfl⟩
    rw [List.getElem?_toArray] at htx
    exact ⟨i, standing, rest, tx, hpop, hrun, htx, rfl⟩
  · rintro ⟨i, standing, rest, tx, hpop, hrun, htx, rfl⟩
    rw [← List.getElem?_toArray] at htx
    exact ⟨i, tx, _, next?_eq_some_iff.2 ⟨standing, rest, hpop, hrun, htx, rfl⟩, rfl⟩

/-- What the heap holds for a waiting transaction. -/
theorem Faithful.value? (hf : Faithful b st p) (hlast : ∀ tx ∈ b, tx.main.nonce < Nonce.last)
    {i : Nat} {tx : Transaction} (hw : p.course.Waits b i tx) :
    p.waiting.value? i = some (p.course.score b tx) := by
  rcases hw with ⟨htx, hout⟩
  have hi : i < b.length := (List.getElem?_eq_some_iff.1 htx).1
  rcases Option.isSome_iff_exists.1 ((hf.waits i).2 ⟨hi, hout⟩) with ⟨x, hx⟩
  rcases hf.fresh.scored.score i x hx with ⟨tx', htx', hscore⟩
  obtain rfl : tx = tx' := Option.some.inj (htx.symm.trans htx')
  rw [hx, hscore, hf.score_eq hlast]

/-- Whatever the heap holds belongs to a waiting transaction. -/
theorem Faithful.waits_of_value? (hf : Faithful b st p) {i : Nat} {x : Standing}
    (hx : p.waiting.value? i = some x) :
    ∃ tx, p.course.Waits b i tx ∧ x = tx.score p.nonces p.pending := by
  rcases hf.fresh.scored.score i x hx with ⟨tx, htx, hscore⟩
  have hout := ((hf.waits i).1 (by rw [hx]; rfl)).2
  exact ⟨tx, ⟨htx, hout⟩, hscore⟩

/-- What the heap gives up is a waiting transaction under its score, and no other outranks it. -/
theorem Faithful.pop (hf : Faithful b st p) (hlast : ∀ tx ∈ b, tx.main.nonce < Nonce.last)
    {i : Nat} {standing : Standing} {rest : KeyedHeap Nat Standing Standing.compare}
    (hpop : p.waiting.pop? = some ((i, standing), rest)) :
    ∃ tx, p.course.Waits b i tx ∧ p.course.score b tx = standing ∧
      ∀ j tx', p.course.Waits b j tx' →
        Standing.compare (p.course.score b tx') standing ≠ .gt := by
  rcases hf.fresh.scored.indexed.pop? hpop with ⟨_, htop, _⟩
  rcases hf.waits_of_value? htop with ⟨tx, hw, hscore⟩
  refine ⟨tx, hw, (hf.score_eq hlast tx).trans hscore.symm, fun j tx' hw' => ?_⟩
  exact hf.fresh.scored.ordered.compare_pop? hf.fresh.scored.indexed hpop (hf.value? hlast hw')

/-- If what the heap gives up can run, its transaction is next in turn. -/
theorem Faithful.turn_of_pop (hf : Faithful b st p) (hlast : ∀ tx ∈ b, tx.main.nonce < Nonce.last)
    {i : Nat} {standing : Standing} {rest : KeyedHeap Nat Standing Standing.compare}
    (hpop : p.waiting.pop? = some ((i, standing), rest)) (hrun : standing.runnable)
    {tx : Transaction} (htx : b[i]? = some tx) : tx.main.nonce = p.nonces.get tx.main.sender := by
  rcases hf.pop hlast hpop with ⟨tx', hw, rfl, _⟩
  obtain rfl : tx = tx' := Option.some.inj (htx.symm.trans hw.1)
  exact (of_decide_eq_true hrun).symm

/-- Once a waiting transaction that is next in turn has left the heap, spending its actions restores
the invariant. -/
theorem Faithful.spends (hf : Faithful b st p) {i : Nat} {standing : Standing} {tx : Transaction}
    {rest : KeyedHeap Nat Standing Standing.compare}
    (hpop : p.waiting.pop? = some ((i, standing), rest)) (hw : p.course.Waits b i tx)
    (hturn : tx.main.nonce = p.nonces.get tx.main.sender)
    (hq : Spends b tx.actions { p with
      waiting := rest
      pending := p.pending.erase tx.main
      scheduled := p.scheduled.push i } q) : Faithful b st q := by
  rcases hf.fresh.scored.indexed.pop? hpop with ⟨_, _, hrest⟩
  dsimp only at hrest
  have htaken : q.scheduled.toList = p.scheduled.toList ++ [i] := by
    rw [hq.scheduled, Array.toList_push]
  have hpick : b.pick (p.scheduled.toList ++ [i]) = b.pick p.scheduled.toList ++ [tx] := by
    rw [pick_append]
    simp [Batch.pick, hw.1]
  refine ⟨hq.fresh, ?_, ?_, ?_, ?_⟩
  · intro j
    rw [hq.waits, hrest, htaken]
    by_cases hij : i = j
    · simp [hij]
    · simp [hij, Ne.symm hij, hf.waits j]
  · intro a
    rw [hq.pending, htaken, hpick, Std.HashSet.mem_erase, hf.pending]
    simp only [Batch.mains, List.map_append, List.mem_append, List.map_cons, List.map_nil,
      List.mem_singleton, not_or, eq_comm (a := a), beq_eq_false_iff_ne]
    exact ⟨fun h => ⟨h.2.1, h.2.2, h.1⟩, fun h => ⟨h.2.2, h.1, h.2.1⟩⟩
  · rw [htaken]
    refine List.nodup_append.2 ⟨hf.distinct, by simp, ?_⟩
    intro j hj k hk hjk
    rw [hjk, List.mem_singleton.1 hk] at hj
    exact hw.2 hj
  · have hexec : p.nonces.execute? tx = some q.nonces :=
      NonceTable.execute?_eq_some_iff.2 ⟨hturn, hq.nonces⟩
    rw [htaken, hpick, NonceTable.replay?_append, hf.replays]
    simp [hexec]

/-- One step takes a waiting transaction that is next in turn, one that no other outranks, and keeps
the invariant. -/
theorem Faithful.step (hf : Faithful b st p) (hlast : ∀ a ∈ b.actions, a.nonce < Nonce.last)
    (hstep : Advances b p q) : Faithful b st q ∧ p.course.Step b q.course := by
  rcases step?_eq_some_iff.1 hstep with ⟨i, standing, rest, tx, hpop, hrun, htx, rfl⟩
  rcases hf.pop (fun tx htx => hlast _ (Batch.main_mem_actions htx)) hpop with
    ⟨tx', hw, rfl, hgreatest⟩
  obtain rfl : tx = tx' := Option.some.inj (htx.symm.trans hw.1)
  have hturn : tx.main.nonce = p.nonces.get tx.main.sender := (of_decide_eq_true hrun).symm
  have hactions (a : Action) (ha : a ∈ tx.actions) : a.nonce < Nonce.last :=
    hlast a (Batch.actions_subset_of_mem (List.mem_of_getElem? htx) ha)
  have hspends := (hf.fresh.pop hpop).run (i := i) hturn hactions
  refine ⟨hf.spends hpop hw hturn hspends, i, tx, hw, hrun, hgreatest, ?_, ?_⟩
  · exact (congrArg Array.toList hspends.scheduled).trans Array.toList_push
  · exact NonceTable.execute?_eq_some_iff.2 ⟨hturn, hspends.nonces⟩

/-- The scheduler stops exactly when no waiting transaction is next in turn: if the one on top of
the heap is not, the order of standings puts no other above it that is. -/
theorem Faithful.step?_eq_none_iff (hf : Faithful b st p)
    (hlast : ∀ tx ∈ b, tx.main.nonce < Nonce.last) :
    p.step? b.toArray = none ↔ p.course.Stuck b := by
  constructor
  · intro hnone i tx hw
    cases hpop : p.waiting.pop? with
    | none =>
        have hempty := hf.fresh.scored.indexed.pop?_eq_none_iff.1 hpop i
        rw [hf.value? hlast hw] at hempty
        cases hempty
    | some popped =>
        rcases popped with ⟨⟨j, standing⟩, rest⟩
        rcases hf.pop hlast hpop with ⟨tx', hw', _, hgreatest⟩
        have hidle : standing.runnable = false := by
          simpa [step?, next?, hpop, hw'.1] using hnone
        exact Standing.runnable_eq_false_of_compare (hgreatest i tx hw) hidle
  · intro hstuck
    rw [Option.eq_none_iff_forall_ne_some]
    intro q hq
    rcases step?_eq_some_iff.1 hq with ⟨i, standing, rest, tx, hpop, hrun, _, rfl⟩
    rcases hf.pop hlast hpop with ⟨tx', hw, rfl, _⟩
    rw [hstuck i tx' hw] at hrun
    cases hrun

/-! ### Runs -/

/-- Every state that the scheduler passes through has the invariant, and is one of a greedy run. -/
theorem faithful_of_reached (hlast : ∀ a ∈ b.actions, a.nonce < Nonce.last)
    (hreached : Reached b st p) :
    Faithful b st p ∧ Relation.ReflTransGen (Course.Step b) ⟨[], st⟩ p.course := by
  induction hreached with
  | refl => exact ⟨faithful_start b st, .refl⟩
  | tail _ hstep ih =>
      rcases ih with ⟨hf, hcourse⟩
      rcases hf.step hlast hstep with ⟨hf', hgreedy⟩
      exact ⟨hf', hcourse.tail hgreedy⟩

/-- A run goes on until no step is left. -/
theorem reached_finish (hreached : Reached b st p) :
    Reached b st (p.finish b.toArray) ∧ (p.finish b.toArray).step? b.toArray = none := by
  fun_induction finish b.toArray p with
  | case1 p hnone => exact ⟨hreached, hnone⟩
  | case2 p q hstep ih => exact ih (hreached.tail hstep)

/-- The scheduler and a greedy run are in step at the head of an iteration. -/
structure Lockstep (b : Batch) (p : Progress) : Prop where
  /-- The heap holds, for every waiting transaction, the score taken from scratch. -/
  stored : ∀ i tx, p.course.Waits b i tx → p.waiting.value? i = some (p.course.score b tx)
  /-- It holds nothing else. -/
  waits : ∀ i x, p.waiting.value? i = some x → ∃ tx, p.course.Waits b i tx
  /-- The pending actions that the scheduler keeps are the main actions never scheduled so far, and
  they score alike. -/
  pending : ∀ a, a ∈ p.pending ↔ a ∈ b.mains ∧ a ∉ (b.pick p.scheduled.toList).mains
  scored : ∀ tx, tx.score p.nonces p.pending = p.course.score b tx
  /-- The iteration makes a greedy choice, or there is none and the scheduler stops. -/
  steps : ∀ q, Advances b p q → p.course.Step b q.course
  stops : p.step? b.toArray = none ↔ p.course.Stuck b
  /-- No position is taken twice. -/
  distinct : p.scheduled.toList.Nodup

/-- By the invariant the scheduler and the greedy run are in step. -/
theorem Faithful.lockstep (hf : Faithful b st p) (hlast : ∀ a ∈ b.actions, a.nonce < Nonce.last) :
    Lockstep b p := by
  have hmains (tx : Transaction) (htx : tx ∈ b) : tx.main.nonce < Nonce.last :=
    hlast _ (Batch.main_mem_actions htx)
  refine ⟨fun _ _ hw => hf.value? hmains hw, ?_, hf.pending, ?_, ?_, ?_, hf.distinct⟩
  · intro i x hx
    rcases hf.waits_of_value? hx with ⟨tx, hw, _⟩
    exact ⟨tx, hw⟩
  · exact fun tx => (hf.score_eq hmains tx).symm
  · exact fun q hstep => (hf.step hlast hstep).2
  · exact hf.step?_eq_none_iff hmains

end Progress

/-- A schedule is what the last state of a run of the scheduler has taken. -/
theorem Batch.schedule_eq (b : Batch) (st : NonceTable) :
    b.schedule st = ⟨b.pick ((Progress.start b st).finish b.toArray).scheduled.toList,
      ((Progress.start b st).finish b.toArray).nonces⟩ := by
  unfold Batch.schedule Progress.order Batch.pick
  simp only [List.getElem?_toArray]

/-- Every run of the scheduler is a run of the greedy scheduler that takes all scores from scratch:
the two are in step in every state that is passed through, and the schedule is the order of a greedy
run that has come to its end. -/
theorem schedule_is_greedy (b : Batch) (st : NonceTable)
    (hlast : ∀ a ∈ b.actions, a.nonce < Nonce.last) :
    (∀ p, Progress.Reached b st p → Progress.Lockstep b p) ∧
      ∃ c : Course, Relation.ReflTransGen (Course.Step b) ⟨[], st⟩ c ∧ c.Stuck b ∧
        c.taken.Nodup ∧ b.schedule st = ⟨b.pick c.taken, c.nonces⟩ := by
  constructor
  · intro p hreached
    exact (Progress.faithful_of_reached hlast hreached).1.lockstep hlast
  · rcases Progress.reached_finish (b := b) (p := .start b st) .refl with ⟨hreached, hnone⟩
    rcases Progress.faithful_of_reached hlast hreached with ⟨hf, hcourse⟩
    have hlock := hf.lockstep hlast
    exact ⟨_, hcourse, hlock.stops.1 hnone, hlock.distinct, b.schedule_eq st⟩

/-- Repeated main actions, repeated authorizations, authorizations of the account's own actions, an
authorization of a waiting main action, and a gap. -/
def tangled : Batch :=
  let act (s : Nat) (n : Nonce) : Action := ⟨.ofNat 20 s, n⟩
  [⟨act 1 0, [act 2 0, act 2 0, act 1 1]⟩, ⟨act 1 0, [act 3 0]⟩, ⟨act 2 0, [act 1 1]⟩,
    ⟨act 2 1, [act 1 2, act 2 2]⟩, ⟨act 1 2, []⟩, ⟨act 3 5, [act 2 2]⟩]

theorem schedule_tangled_is_greedy :
    (∀ a ∈ tangled.actions, a.nonce < Nonce.last) ∧
      (∀ p, Progress.Reached tangled ∅ p → Progress.Lockstep tangled p) ∧
      ∃ c : Course, Relation.ReflTransGen (Course.Step tangled) ⟨[], ∅⟩ c ∧ c.Stuck tangled ∧
        c.taken.Nodup ∧ tangled.schedule ∅ = ⟨tangled.pick c.taken, c.nonces⟩ :=
  ⟨by decide, schedule_is_greedy tangled ∅ (by decide)⟩

end BatchOrder
