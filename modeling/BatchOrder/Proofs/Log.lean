import Mathlib.Data.List.Nodup
import BatchOrder.Proofs.Counts

/-!
# The log of a plan

An observer reads events by their wording and by the names of their fields.  What a plan reports in
this way accounts for every transaction that was submitted: it is either announced as the next to be
scheduled, or it is one of those that a pass or a cluster reports to be gone.  Each stage keeps the
balance between what it is given, what it passes on and what it reports as lost, and the reports of
the stages stand one after another in the log.

Main results:

- Theorem `events_planFrom`: the log of a plan, stage by stage.
- Theorem `lost_pruneLogged`: what pruning reports as lost is what it does not pass on.
- Theorem `lost_clusters`: so it is with the scheduling of the clusters.
- Theorem `count_messages_planFrom_le`: what is reported once at most.
- Theorem `log_accounts_for_batch`: the log of a plan accounts for every transaction.
-/

namespace BatchOrder

/-! ## Reading a log -/

namespace Event

/-- The count that an event carries under a name. -/
def count? (e : Event) (name : String) : Option Nat :=
  match e.fields.lookup name with
  | some (.count n) => some n
  | _ => none

/-- The text that an event carries under a name. -/
def text? (e : Event) (name : String) : Option String :=
  match e.fields.lookup name with
  | some (.text s) => some s
  | _ => none

/-- What the last event states are the counts of the report. -/
theorem count?_decided (r : Report) : (decided r).count? "tx_count" = some r.input ∧
    (decided r).count? "scheduled" = some r.scheduled ∧
    (decided r).count? "dropped" = some (r.input - r.scheduled) := by
  simp [count?, fields, List.lookup_cons, Report.dropped]

end Event

/-- The events of a log with a given wording. -/
def worded (log : List Event) (message : String) : List Event :=
  log.filter (·.message = message)

/-- The sum of a count over the events with a given wording, zero if there are none. -/
def tally (log : List Event) (message name : String) : Nat :=
  ((worded log message).filterMap (·.count? name)).sum

/-- The texts that the events with a given wording carry under a name. -/
def readings (log : List Event) (message name : String) : List String :=
  (worded log message).filterMap (·.text? name)

/-- The transactions that a log reports to be gone, in number: repeated ones, those out of reach and
those that a cluster has left over. -/
def reportedGone (log : List Event) : Nat :=
  tally log "Removed duplicate transactions" "removed" +
    tally log "Removed unreachable actions" "removed" + tally log "Partition stalled" "stalled"

/-! ## Losses and announcements -/

/-- The number of transactions that an event reports to be gone. -/
def Event.loss : Event → Nat
  | droppedDuplicates removed => removed
  | droppedUnreachable removed _ => removed
  | stalled _ left => left
  | _ => 0

/-- The main action that an event announces. -/
def Event.announced? : Event → Option Action
  | scheduling main => some main
  | _ => none

/-- The sum of the numbers of transactions that events report to be gone. -/
def lost (log : List Event) : Nat := (log.map Event.loss).sum

/-- The main actions that a log announces, in order. -/
def announced (log : List Event) : List Action := log.filterMap Event.announced?

@[simp] theorem lost_nil : lost [] = 0 := rfl

@[simp] theorem lost_cons (e : Event) (log : List Event) : lost (e :: log) = e.loss + lost log :=
  List.sum_cons

@[simp] theorem lost_append (log log' : List Event) :
    lost (log ++ log') = lost log + lost log' := by
  unfold lost
  rw [List.map_append, List.sum_append]

/-- What a report counts as gone if it is made on a condition. -/
theorem lost_ite (p : Prop) [Decidable p] (e : Event) :
    lost (if p then [e] else []) = if p then e.loss else 0 := by
  split
  · rw [lost_cons, lost_nil, Nat.add_zero]
  · rw [lost_nil]

@[simp] theorem announced_cons (e : Event) (log : List Event) :
    announced (e :: log) = e.announced?.toList ++ announced log := by
  unfold announced
  cases he : e.announced? <;> simp [he]

@[simp] theorem announced_append (log log' : List Event) :
    announced (log ++ log') = announced log ++ announced log' :=
  List.filterMap_append

theorem announced_ite (p : Prop) [Decidable p] (e : Event) :
    announced (if p then [e] else []) = if p then e.announced?.toList else [] := by
  split
  · rw [announced_cons]
    exact List.append_nil _
  · rfl

theorem worded_cons (e : Event) (log : List Event) (message : String) :
    worded (e :: log) message =
      if e.message = message then e :: worded log message else worded log message := by
  unfold worded
  rw [List.filter_cons]
  exact if_congr (decide_eq_true_iff) rfl rfl

theorem tally_cons (e : Event) (log : List Event) (message name : String) :
    tally (e :: log) message name =
      (if e.message = message then (e.count? name).getD 0 else 0) + tally log message name := by
  unfold tally
  rw [worded_cons]
  split
  · cases hc : e.count? name <;> simp [hc]
  · rw [Nat.zero_add]

theorem readings_cons (e : Event) (log : List Event) (message name : String) :
    readings (e :: log) message name =
      (if e.message = message then (e.text? name).toList else []) ++ readings log message name := by
  unfold readings
  rw [worded_cons]
  split
  · cases ht : e.text? name <;> simp [ht]
  · rw [List.nil_append]

/-- Transactions are reported to be gone under three wordings. -/
theorem reportedGone_eq_lost (log : List Event) : reportedGone log = lost log := by
  unfold reportedGone
  induction log with
  | nil => rfl
  | cons e log ih =>
      rw [lost_cons, tally_cons, tally_cons, tally_cons, ← ih]
      cases e <;> simp [Event.message, Event.count?, Event.fields, Event.loss, List.lookup_cons] <;>
        omega

/-- Transactions are announced under one wording. -/
theorem readings_scheduling (log : List Event) :
    readings log "Scheduling transaction" "action" = (announced log).map Action.text := by
  induction log with
  | nil => rfl
  | cons e log ih =>
      rw [readings_cons, ih, announced_cons, List.map_append]
      cases e <;> simp [Event.message, Event.text?, Event.fields, Event.announced?]

/-! ## The balance of every stage -/

section Stages

variable (b : Batch) (st : NonceTable)

/-- What the first pass reports is what it does not pass on. -/
theorem lost_distinctLogged : lost b.distinctLogged.events + b.distinct.length = b.length := by
  have hle : b.distinct.length ≤ b.length := (sublist_keepFirst Transaction.main b).length_le
  simp only [Batch.distinctLogged, Logged.events_bind, Logged.events_emitIf, Logged.events_pure,
    List.append_nil, decide_eq_true_eq, lost_ite, Event.loss]
  split <;> omega

/-- Dropping authorizations loses no transaction. -/
theorem lost_satisfiableLogged :
    lost b.satisfiableLogged.events + b.satisfiable.length = b.length := by
  have hlength : b.satisfiable.length = b.length := List.length_map ..
  simp only [Batch.satisfiableLogged, Logged.events_bind, Logged.events_emitIf, Logged.events_pure,
    List.append_nil, lost_ite, Event.loss, ite_self]
  rw [hlength, Nat.zero_add]

/-- The report of unreachable actions counts the transactions among them, also if there are none and
it is made for authorizations only. -/
theorem lost_reachableLogged :
    lost (b.reachableLogged st).events + (b.reachable st).length = b.length := by
  have hle : (b.reachable st).length ≤ b.length := by
    unfold Batch.reachable
    rw [List.length_map]
    exact List.length_filter_le ..
  simp only [Batch.reachableLogged, Logged.events_bind, Logged.events_emitIf, Logged.events_pure,
    List.append_nil, Bool.or_eq_true, decide_eq_true_eq, lost_ite, Event.loss]
  split <;> omega

/-- The passes are reported one after another. -/
theorem events_pruneLogged : (b.pruneLogged st).events = b.distinctLogged.events ++
    (b.distinct.satisfiableLogged.events ++ (b.candidates.reachableLogged st).events) := rfl

/-- What the passes report as lost is what they do not leave. -/
theorem lost_pruneLogged : lost (b.pruneLogged st).events + (b.prune st).length = b.length := by
  have hdistinct := lost_distinctLogged b
  have hsatisfiable : lost b.distinct.satisfiableLogged.events + b.candidates.length =
      b.distinct.length := lost_satisfiableLogged b.distinct
  have hreachable : lost (b.candidates.reachableLogged st).events + (b.prune st).length =
      b.candidates.length := lost_reachableLogged b.candidates st
  rw [events_pruneLogged, lost_append, lost_append]
  omega

end Stages

section Clusters

variable {st : NonceTable}

/-- What a cluster does not schedule it reports as left over. -/
theorem lost_scheduleLogged {c : Batch} (hle : (c.schedule st).order.length ≤ c.length) :
    lost (c.scheduleLogged st).events + (c.schedule st).order.length = c.length := by
  have hannounced (as : List Action) : lost (as.map .scheduling) = 0 := by
    induction as with
    | nil => rfl
    | cons a as ih => simp [ih, Event.loss]
  rw [Batch.events_scheduleLogged, lost_append, hannounced, lost_ite, Event.loss]
  split <;> omega

/-- What the clusters report as left over is what is not in their orders. -/
theorem lost_clusters {clusters : List Batch}
    (hle : ∀ c ∈ clusters, (c.schedule st).order.length ≤ c.length) :
    lost (clusters.flatMap fun c => (c.scheduleLogged st).events) +
      (clusters.map fun c => (c.schedule st).order).flatten.length =
        (clusters.map List.length).sum := by
  induction clusters with
  | nil => rfl
  | cons c clusters ih =>
      rcases List.forall_mem_cons.1 hle with ⟨hc, hrest⟩
      have hbalance := lost_scheduleLogged hc
      have hrest := ih hrest
      rw [List.flatMap_cons, lost_append, List.map_cons, List.map_cons, List.flatten_cons,
        List.length_append, List.sum_cons]
      omega

/-- Scheduling a cluster announces its order. -/
theorem announced_scheduleLogged (c : Batch) :
    announced (c.scheduleLogged st).events = (c.schedule st).order.mains := by
  have hannounced (as : List Action) : announced (as.map .scheduling) = as := by
    induction as with
    | nil => rfl
    | cons a as ih => simp [ih, Event.announced?]
  have hstalled (m n : Nat) : (Event.stalled m n).announced?.toList = [] := rfl
  rw [Batch.events_scheduleLogged, announced_append, hannounced, announced_ite, hstalled, ite_self,
    List.append_nil]

/-- The clusters announce their orders, one after another. -/
theorem announced_clusters (clusters : List Batch) :
    announced (clusters.flatMap fun c => (c.scheduleLogged st).events) =
      Batch.mains (clusters.map fun c => (c.schedule st).order).flatten := by
  induction clusters with
  | nil => rfl
  | cons c clusters ih =>
      rw [List.flatMap_cons, announced_append, ih, announced_scheduleLogged, List.map_cons,
        List.flatten_cons]
      exact List.map_append.symm

end Clusters

/-! ## The log of a plan -/

/-- Under settings that sort clusters in turn a plan is reported stage by stage: the passes, the
division into clusters, the clusters one after another, and the counts. -/
theorem events_planFrom {s : Settings} (hs : s.parallelSorting = false) (b : Batch) (seed : UInt64)
    (st : NonceTable) : ∃ accounts links, (s.planFrom b seed st).events =
      (b.pruneLogged st).events ++ .clustered accounts links (b.prune st).clusters.length ::
        (((b.prune st).clusters.flatMap fun c => (c.scheduleLogged st).events) ++
          [.decided (b.mergedPlan seed st).report]) := by
  have hturn : s.scheduleClusters st (b.prune st).clusters =
      (fun r => r.1) <$> scheduleInTurn st (b.prune st).clusters := by
    unfold Settings.scheduleClusters Settings.sortsApart
    simp [hs]
  have hevents : (s.scheduleClusters st (b.prune st).clusters).events =
      (b.prune st).clusters.flatMap fun c => (c.scheduleLogged st).events := by
    rw [hturn, ← events_scheduleInTurn (separate_clusters_prune b st) st]
    exact List.append_nil _
  have hvalue : (s.scheduleClusters st (b.prune st).clusters).value = b.orders st :=
    value_scheduleClusters s (separate_clusters_prune b st) st
  refine ⟨(LinkGraph.ofBatch (b.prune st)).nodeCount,
    (LinkGraph.ofBatch (b.prune st)).linkCount, ?_⟩
  rw [← hevents]
  unfold Settings.planFrom
  simp only [Logged.events_bind, Logged.events_emit, Logged.events_pure, List.append_nil,
    Batch.value_pruneLogged, Batch.value_clustersLogged, hvalue]
  rfl

/-- The wordings of what is reported once for a batch, in order. -/
def onceWorded : List String :=
  ["Removed duplicate transactions", "Removed unsatisfiable authorizations",
    "Removed unreachable actions", "Partitioned batch", "Execution order decided"]

/-- An event under a condition is reported once at most. -/
theorem messages_emitIf (condition : Bool) (e : Event) :
    ((Logged.emitIf condition e).events.map Event.message).Sublist [e.message] := by
  rw [Logged.events_emitIf]
  split
  · exact List.Sublist.refl _
  · exact List.nil_sublist _

/-- Each pass reports once at most, in the order of the passes. -/
theorem messages_pruneLogged (b : Batch) (st : NonceTable) :
    ((b.pruneLogged st).events.map Event.message).Sublist (onceWorded.take 3) := by
  simp only [events_pruneLogged, List.map_append, Batch.distinctLogged, Batch.satisfiableLogged,
    Batch.reachableLogged, Logged.events_bind, Logged.events_pure, List.append_nil]
  exact (messages_emitIf ..).append ((messages_emitIf ..).append (messages_emitIf ..))

/-- Scheduling clusters uses two wordings only. -/
theorem count_messages_clusters (st : NonceTable) (clusters : List Batch) {message : String}
    (hscheduling : message ≠ "Scheduling transaction") (hstalled : message ≠ "Partition stalled") :
    ((clusters.flatMap fun c => (c.scheduleLogged st).events).map Event.message).count message =
      0 := by
  rw [List.count_eq_zero]
  intro hmem
  rcases List.mem_map.1 hmem with ⟨e, he, rfl⟩
  rcases List.mem_flatMap.1 he with ⟨c, _, he⟩
  rw [Batch.events_scheduleLogged] at he
  rcases List.mem_append.1 he with he | he
  · rcases List.mem_map.1 he with ⟨a, _, rfl⟩
    exact hscheduling rfl
  · split at he
    · rw [List.mem_singleton.1 he] at hstalled
      exact hstalled rfl
    · cases he

/-- Only the scheduling of clusters is reported more than once.  The clusters have wordings of their
own, so for all others only the passes, the division and the counts matter. -/
theorem count_messages_planFrom_le {s : Settings} (hs : s.parallelSorting = false) (b : Batch)
    (seed : UInt64) (st : NonceTable) {message : String}
    (hscheduling : message ≠ "Scheduling transaction") (hstalled : message ≠ "Partition stalled") :
    ((s.planFrom b seed st).events.map Event.message).count message ≤ 1 := by
  rcases events_planFrom hs b seed st with ⟨accounts, links, hevents⟩
  have hclusters := count_messages_clusters st (b.prune st).clusters hscheduling hstalled
  have hprune := (messages_pruneLogged b st).count_le message
  have honce : onceWorded.count message ≤ 1 := List.nodup_iff_count_le_one.1 (by decide) message
  have hsplit : onceWorded.count message = (onceWorded.take 3).count message +
      (["Partitioned batch"].count message + ["Execution order decided"].count message) := by
    rw [← List.count_append, ← List.count_append]
    rfl
  rw [hevents, List.map_append, List.map_cons, List.map_append, List.count_append,
    ← List.singleton_append, List.count_append, List.count_append, hclusters]
  simp only [Event.message, List.map_cons, List.map_nil]
  omega

/-- Pruning announces nothing. -/
theorem announced_pruneLogged (b : Batch) (st : NonceTable) :
    announced (b.pruneLogged st).events = [] := by
  simp only [events_pruneLogged, Batch.distinctLogged, Batch.satisfiableLogged,
    Batch.reachableLogged, Logged.events_bind, Logged.events_emitIf, Logged.events_pure,
    announced_append, announced_ite, Event.announced?, Option.toList_none, ite_self,
    List.append_nil]

/-- A plan announces the orders of the clusters, one after another. -/
theorem announced_planFrom {s : Settings} (hs : s.parallelSorting = false) (b : Batch)
    (seed : UInt64) (st : NonceTable) :
    announced (s.planFrom b seed st).events = Batch.mains (b.orders st).flatten := by
  rcases events_planFrom hs b seed st with ⟨accounts, links, hevents⟩
  rw [hevents, announced_append, announced_cons, announced_append, announced_clusters,
    announced_pruneLogged]
  exact List.append_nil _

/-- Every transaction of the batch is in one of the orders or is reported to be gone. -/
theorem lost_planFrom {s : Settings} (hs : s.parallelSorting = false) (b : Batch)
    (seed : UInt64) (st : NonceTable) :
    lost (s.planFrom b seed st).events + (b.orders st).flatten.length = b.length := by
  rcases events_planFrom hs b seed st with ⟨accounts, links, hevents⟩
  have hseparate := separate_clusters_prune b st
  have hle (c : Batch) (hc : c ∈ (b.prune st).clusters) :
      (c.schedule st).order.length ≤ c.length :=
    (settles_schedule (hseparate.lt_last c hc) st).1.length_le fun tx htx =>
      hseparate.lt_last c hc _ (Batch.main_mem_actions htx)
  have hprune := lost_pruneLogged b st
  have hclusters := lost_clusters hle
  rw [Batch.sum_length_clusters] at hclusters
  rw [hevents, lost_append, lost_cons, lost_append, lost_cons, lost_nil, Batch.orders]
  simp only [Event.loss]
  omega

/-- The announcements for a cluster are in the order that the cluster has in the plan. -/
theorem filter_announced_planFrom {s : Settings} (hs : s.parallelSorting = false) (b : Batch)
    (seed : UInt64) {st : NonceTable} {c : Batch} (hc : c ∈ (b.prune st).clusters) :
    (announced (s.planFrom b seed st).events).filter (· ∈ c.mains) =
      Batch.mains ((b.mergedPlan seed st).transactions.filter (· ∈ c)) := by
  have horders := interleaves_flatten (b.orders st)
  have hsettles := settles_of_interleaves (settles_orders b st) horders
  rw [announced_planFrom hs, filter_mem_mergedPlan seed hc,
    ← filter_mem_of_interleaves horders hc, Batch.mains, Batch.mains, List.filter_map]
  apply congrArg (List.map Transaction.main)
  apply List.filter_congr
  intro tx htx
  exact decide_eq_decide.2 (Batch.main_mem_mains_iff hc (hsettles.subset htx))

/-! ## Plans with the nonces of a provider -/

/-- What is reported while a batch is planned with the nonces that a provider gives. -/
def Settings.logWith (s : Settings) (b : Batch) (provider : Address → Nonce) (seed : UInt64) :
    List Event :=
  (Id.run (s.plan b (fun a => pure (provider a)) seed)).events

/-- A log accounts for an order of a batch.  The last event states the size of the batch, how much
of it is scheduled and how much is dropped; the reports of the passes, each made once at most, and
those of the clusters make up what is dropped; and what is announced is what the order consists of,
for every cluster in the same order. -/
structure AccountsFor (log : List Event) (b order : Batch) (clusters : List Batch) : Prop where
  once : ∀ message, message ≠ "Scheduling transaction" → message ≠ "Partition stalled" →
    (log.map Event.message).count message ≤ 1
  closing : ∃ final, log.getLast? = some final ∧ final.message = "Execution order decided" ∧
    final.count? "tx_count" = some b.length ∧ final.count? "scheduled" = some order.length ∧
    final.count? "dropped" = some (reportedGone log)
  balance : reportedGone log + order.length = b.length
  announced : (readings log "Scheduling transaction" "action").Perm (order.mains.map Action.text)
  ordered : ∀ c ∈ clusters,
    (readings log "Scheduling transaction" "action").filter (· ∈ c.mains.map Action.text) =
      (Batch.mains (order.filter (· ∈ c))).map Action.text

/-- The log of a plan accounts for every transaction of the batch: what the passes and the clusters
report to be gone is what the plan leaves out, and what is announced is what it consists of. -/
theorem log_accounts_for_batch (s : Settings) (hs : s.parallelSorting = false) (b : Batch)
    (provider : Address → Nonce) (seed : UInt64) :
    AccountsFor (s.logWith b provider seed) b (s.planWith b provider seed).transactions
      (b.plannedClusters provider) := by
  have hlog : s.logWith b provider seed =
      (s.planFrom b seed (b.givenNonces provider)).events := rfl
  have hperm := (interleaves_mergedPlan b seed (b.givenNonces provider)).perm
  have hlost := lost_planFrom hs b seed (b.givenNonces provider)
  rw [hlog, planWith_eq]
  have hbalance : reportedGone (s.planFrom b seed (b.givenNonces provider)).events +
      (b.mergedPlan seed (b.givenNonces provider)).transactions.length = b.length := by
    rw [reportedGone_eq_lost, hperm.length_eq]
    exact hlost
  constructor
  case once =>
    intro message hscheduling hstalled
    exact count_messages_planFrom_le hs b seed _ hscheduling hstalled
  case closing =>
    rcases events_planFrom hs b seed (b.givenNonces provider) with ⟨accounts, links, hevents⟩
    have hcounts := Event.count?_decided (b.mergedPlan seed (b.givenNonces provider)).report
    have hdropped := Nat.eq_sub_of_add_eq hbalance
    rw [Batch.input_mergedPlan, Batch.scheduled_mergedPlan, ← hdropped] at hcounts
    refine ⟨_, ?_, rfl, hcounts⟩
    rw [hevents, ← List.cons_append, ← List.append_assoc, List.getLast?_concat]
  case balance => exact hbalance
  case announced =>
    rw [readings_scheduling, announced_planFrom hs]
    exact (hperm.symm.map Transaction.main).map Action.text
  case ordered =>
    intro c hc
    rw [readings_scheduling, ← filter_announced_planFrom hs b seed hc, List.filter_map]
    apply congrArg (List.map Action.text)
    apply List.filter_congr
    intro a _
    have htext : a.text ∈ c.mains.map Action.text ↔ a ∈ c.mains :=
      List.mem_map_of_injective fun _ _ => Action.text_inj.1
    exact decide_eq_decide.2 htext

theorem log_accounts_for_tangled :
    Settings.sequential.parallelSorting = false ∧
      AccountsFor (Settings.sequential.logWith tangled pastTheGap 7) tangled
        (Settings.sequential.planWith tangled pastTheGap 7).transactions
        (tangled.plannedClusters pastTheGap) :=
  ⟨rfl, log_accounts_for_batch .sequential rfl tangled pastTheGap 7⟩

end BatchOrder
