import BatchOrder.Endpoint
import BatchOrder.Proofs.Counts
import BatchOrder.Proofs.Wire

/-!
# What is answered to a request

A request is taken up exactly if it is admissible: the caller may make it, its size is within the
limit, and it states the nonce of every account that it names.  A refusal names the first of these
conditions that fails and says nothing else about the request.  An answer carries the plan for the
transactions of the request from the nonces that it states, with counts that are exact as long as
the limit has 32 bits; and a request that was written out and read back is answered alike.

Main results:

- Theorems `check_eq_ok_iff` and `check_eq_error_iff`: what is taken up and why others are not.
- Theorem `answer_iff_admissible`: the answers to all requests.
- Theorem `answer_of_written_request`: a batch sent as a written request is answered with its order
  of execution.
-/

namespace BatchOrder

/-! ## Stated nonces -/

/-- Of several entries for one account the last one counts. -/
theorem NonceTable.find?_foldl_set_entries (entries : List (Address × Nonce)) (st : NonceTable)
    (a : Address) :
    (entries.foldl (fun st e => st.set e.1 e.2) st).find? a =
      (entries.reverse.lookup a).or (st.find? a) := by
  induction entries generalizing st with
  | nil => rfl
  | cons e entries ih =>
      have hfirst : (st.set e.1 e.2).find? a = ([e].lookup a).or (st.find? a) := by
        rw [find?_set, List.lookup_cons, List.lookup_nil]
        by_cases hea : e.1 = a
        · simp [hea]
        · simp [hea, beq_eq_false_iff_ne.2 (Ne.symm hea)]
      rw [List.foldl_cons, ih, hfirst, List.reverse_cons, List.lookup_append, Option.or_assoc]

/-- Of several entries for one account the last counts. -/
theorem NonceTable.find?_ofList (entries : List (Address × Nonce)) (a : Address) :
    (ofList entries).find? a = entries.reverse.lookup a := by
  rw [ofList, find?_foldl_set_entries, find?_empty, Option.or_none]

/-- A table knows the accounts of the entries that it is made from. -/
theorem NonceTable.contains_ofList {entries : List (Address × Nonce)} {a : Address} :
    (ofList entries).contains a = true ↔ a ∈ entries.map Prod.fst := by
  rw [contains_eq_isSome, find?_ofList, List.lookup_isSome_iff, List.mem_map]
  refine exists_congr fun e => ?_
  rw [List.mem_reverse, beq_iff_eq, eq_comm (a := a)]

/-- The accounts that a transaction names as it is sent, that of the main action first. -/
def Payload.named (p : Payload) : List Address := p.sender :: p.authorizations.map Prod.fst

namespace Request

/-- The accounts that a request names, in order and with repetitions. -/
def named (r : Request) : List Address := r.transactions.flatMap Payload.named

/-- The request states the nonce of an account. -/
def States (r : Request) (a : Address) : Prop := a ∈ r.accountNonces.map Prod.fst

variable {r : Request} {s : Settings} {caller : UInt8} {refusal : Refusal}

instance (a : Address) : Decidable (r.States a) :=
  inferInstanceAs (Decidable (a ∈ r.accountNonces.map Prod.fst))

/-- The table of a request knows the accounts whose nonces the request states. -/
theorem contains_stated (r : Request) (a : Address) :
    r.stated.contains a = true ↔ r.States a :=
  NonceTable.contains_ofList

/-- The batch of a request names the accounts that the request names, in the same order. -/
theorem senders_batch (r : Request) : r.batch.senders = r.named := by
  have hnamed (p : Payload) : p.toTransaction.actions.map Action.sender = p.named := by
    simp [Payload.toTransaction, Payload.named, Transaction.actions, Function.comp_def]
  unfold batch named Batch.senders Batch.actions
  rw [List.map_flatMap, List.flatMap_map, funext hnamed]

/-! ## Admissible requests -/

/-- A request that may be taken up. -/
structure Admissible (r : Request) (s : Settings) (caller : UInt8) : Prop where
  caller : caller = authorizedCaller
  size : r.transactions.length ≤ s.maxBatchSize
  stated : ∀ a ∈ r.named, r.States a

/-- The first condition that a request fails, in the order in which they count: the caller, the size
and the nonces, of which the first counts that is missing. -/
inductive FirstFault (r : Request) (s : Settings) (caller : UInt8) : Refusal → Prop
  | caller (hcaller : caller ≠ authorizedCaller) :
      FirstFault r s caller (.unauthorizedCaller caller)
  | size (hcaller : caller = authorizedCaller) (hsize : s.maxBatchSize < r.transactions.length) :
      FirstFault r s caller (.batchTooLarge r.transactions.length s.maxBatchSize)
  | nonce {before after : List Address} {a : Address} (hcaller : caller = authorizedCaller)
      (hsize : r.transactions.length ≤ s.maxBatchSize) (hnamed : r.named = before ++ a :: after)
      (hbefore : ∀ x ∈ before, r.States x) (hmissing : ¬ r.States a) :
      FirstFault r s caller (.missingNonce a)

/-- What is checked, step by step. -/
theorem check_eq (r : Request) (s : Settings) (caller : UInt8) : r.check s caller =
    if caller ≠ authorizedCaller then .error (.unauthorizedCaller caller)
    else if s.maxBatchSize < r.transactions.length then
      .error (.batchTooLarge r.transactions.length s.maxBatchSize)
    else match r.uncovered? with
      | some a => .error (.missingNonce a)
      | none => .ok () := by
  unfold check
  by_cases hcaller : caller = authorizedCaller
  · by_cases hsize : s.maxBatchSize < r.transactions.length
    · simp [hcaller, hsize]
      rfl
    · cases r.uncovered? <;> simp [hcaller, hsize] <;> rfl
  · simp [hcaller]
    rfl

/-- A request states the nonces of all accounts that it names if none of them is found uncovered. -/
theorem uncovered?_eq_none_iff : r.uncovered? = none ↔ ∀ a ∈ r.named, r.States a := by
  unfold uncovered?
  rw [List.find?_eq_none, senders_batch]
  refine forall₂_congr fun a _ => ?_
  rw [Bool.not_eq_true, Bool.not_eq_false', contains_stated]

/-- The account that is found uncovered is the first named one whose nonce is not stated. -/
theorem uncovered?_eq_some_iff {a : Address} : r.uncovered? = some a ↔
    ¬ r.States a ∧ ∃ before after, r.named = before ++ a :: after ∧ ∀ x ∈ before, r.States x := by
  unfold uncovered?
  rw [List.find?_eq_some_iff_append, senders_batch]
  simp only [Bool.not_not, Bool.not_eq_true', ← contains_stated, Bool.not_eq_true]

/-- Exactly the admissible requests are taken up. -/
theorem check_eq_ok_iff : r.check s caller = .ok () ↔ r.Admissible s caller := by
  rw [check_eq]
  constructor
  · intro hok
    split at hok
    · cases hok
    · next hcaller =>
      split at hok
      · cases hok
      · next hsize =>
        split at hok
        · cases hok
        · next hnone =>
          exact ⟨not_not.1 hcaller, Nat.not_lt.1 hsize, uncovered?_eq_none_iff.1 hnone⟩
  · rintro ⟨rfl, hsize, hstated⟩
    simp [Nat.not_lt.2 hsize, uncovered?_eq_none_iff.2 hstated]

/-- Requests that are not admissible are refused for their first fault. -/
theorem check_eq_error_iff : r.check s caller = .error refusal ↔ r.FirstFault s caller refusal := by
  rw [check_eq]
  constructor
  · intro herror
    split at herror
    · next hcaller =>
      cases herror
      exact .caller hcaller
    · next hcaller =>
      split at herror
      · next hsize =>
        cases herror
        exact .size (not_not.1 hcaller) hsize
      · next hsize =>
        split at herror
        · next a hsome =>
          cases herror
          rcases uncovered?_eq_some_iff.1 hsome with ⟨hmissing, before, after, hnamed, hbefore⟩
          exact .nonce (not_not.1 hcaller) (Nat.not_lt.1 hsize) hnamed hbefore hmissing
        · cases herror
  · rintro (hcaller | ⟨rfl, hsize⟩ | ⟨rfl, hsize, hnamed, hbefore, hmissing⟩)
    · rw [if_pos hcaller]
    · simp [hsize]
    · simp [Nat.not_lt.2 hsize, uncovered?_eq_some_iff.2 ⟨hmissing, _, _, hnamed, hbefore⟩]

/-- The plan for the transactions of a request from the nonces that it states. -/
def plan (r : Request) (s : Settings) : Plan := s.planWith r.batch r.stated.get r.seed

/-- The response that carries a plan. -/
def acceptance (r : Request) (p : Plan) (time : UInt64) : Response where
  correlationId := r.correlationId
  success := true
  ordered := p.mains.map fun a => (a.sender, a.nonce)
  metrics := .ofReport p.report time
  error := none

/-- A request that is taken up is answered with its plan. -/
theorem value_answer_of_admissible (h : r.Admissible s caller) (time : UInt64) :
    (r.answer s caller time).value = r.acceptance (r.plan s) time := by
  unfold answer
  rw [check_eq_ok_iff.2 h]
  rfl

/-- A request that is refused is answered with the reason and nothing else. -/
theorem value_answer_of_firstFault (h : r.FirstFault s caller refusal) (time : UInt64) :
    (r.answer s caller time).value = .refusal r.correlationId refusal := by
  unfold answer
  rw [check_eq_error_iff.2 h]
  rfl

/-- Every request is admissible or has a first fault. -/
theorem admissible_or_firstFault (r : Request) (s : Settings) (caller : UInt8) :
    r.Admissible s caller ∨ ∃ refusal, r.FirstFault s caller refusal := by
  cases hcheck : r.check s caller with
  | ok _ => exact .inl (check_eq_ok_iff.1 hcheck)
  | error refusal => exact .inr ⟨refusal, check_eq_error_iff.1 hcheck⟩

/-- A request that has a fault is not admissible. -/
theorem FirstFault.not_admissible (h : r.FirstFault s caller refusal) :
    ¬ r.Admissible s caller := by
  intro hok
  have herror := check_eq_error_iff.2 h
  rw [check_eq_ok_iff.2 hok] at herror
  cases herror

/-- The counts of an answer are exact: neither the size of the batch nor any later count is cut. -/
theorem counts_acceptance (h : r.Admissible s caller) (hlimit : s.maxBatchSize < UInt32.size)
    (time : UInt64) :
    (r.acceptance (r.plan s) time).metrics.Counts (r.plan s).report := by
  have hinput : (r.plan s).report.input < UInt32.size := by
    calc (r.plan s).report.input = r.batch.length := rfl
      _ = r.transactions.length := List.length_map ..
      _ < UInt32.size := Nat.lt_of_le_of_lt h.size hlimit
  have hnested : (r.plan s).report.Nested := by
    rw [plan, planWith_eq]
    exact nested_mergedPlan ..
  exact counts_ofReport hnested hinput time

/-! ## The answers to all requests -/

/-- Every request is answered under its number, and exactly the admissible ones with success.  The
others are answered with the wording of their first fault and nothing else, so that a caller who may
not make requests learns the same from all that have one number.  An answer with success carries the
main actions of the plan, and its counts are those of the plan if the limit has 32 bits. -/
theorem answer_iff_admissible (r : Request) (s : Settings) (caller : UInt8) (time : UInt64) :
    let response := (r.answer s caller time).value
    response.correlationId = r.correlationId ∧
      (response.success = true ↔ r.Admissible s caller) ∧
      (response.success = false → ∃ refusal, r.FirstFault s caller refusal ∧
        response = ⟨r.correlationId, false, [], ⟨0, 0, 0, 0, 0, 0⟩, some refusal.message⟩) ∧
      (caller ≠ authorizedCaller → ∀ (r' : Request) (s' : Settings) (time' : UInt64),
        r'.correlationId = r.correlationId → (r'.answer s' caller time').value = response) ∧
      (response.success = true → response.error = none ∧
        response.ordered = (r.plan s).mains.map (fun a => (a.sender, a.nonce)) ∧
        (s.maxBatchSize < UInt32.size → response.metrics.Counts (r.plan s).report ∧
          response.ordered.length = response.metrics.scheduled.toNat)) := by
  intro response
  rcases admissible_or_firstFault r s caller with hok | ⟨refusal, hfault⟩
  · have hresponse : response = r.acceptance (r.plan s) time := value_answer_of_admissible hok time
    clear_value response
    subst hresponse
    refine ⟨rfl, iff_of_true rfl hok, nofun, fun hcaller => absurd hok.caller hcaller, fun _ => ?_⟩
    refine ⟨rfl, rfl, fun hlimit => ?_⟩
    have hcounts := counts_acceptance hok hlimit time
    refine ⟨hcounts, ?_⟩
    calc (r.acceptance (r.plan s) time).ordered.length
      _ = (r.plan s).mains.length := List.length_map ..
      _ = (r.plan s).transactions.length := List.length_map ..
      _ = (r.plan s).report.scheduled := rfl
      _ = (r.acceptance (r.plan s) time).metrics.scheduled.toNat := hcounts.scheduled.symm
  · have hresponse : response = .refusal r.correlationId refusal :=
      value_answer_of_firstFault hfault time
    clear_value response
    subst hresponse
    refine ⟨rfl, iff_of_false nofun hfault.not_admissible, fun _ => ⟨refusal, hfault, rfl⟩, ?_,
      nofun⟩
    intro hcaller r' s' time' hid
    have hsame : refusal = .unauthorizedCaller caller := by
      cases hfault with
      | caller _ => rfl
      | size h _ => exact absurd h hcaller
      | nonce h _ _ _ _ => exact absurd h hcaller
    rw [value_answer_of_firstFault (.caller hcaller), hid, hsame]

/-- A transaction with an authorization of an account whose nonce is stated twice. -/
def authorizing : Request where
  correlationId := .ofNat 16 1
  replyTo := "orders"
  transactions := [⟨.ofNat 20 1, 0, [(.ofNat 20 2, 7)]⟩]
  accountNonces := [(.ofNat 20 2, 3), (.ofNat 20 1, 0), (.ofNat 20 2, 7)]
  seed := 5

/-- A request that is taken up, and refused if it states no nonces or comes from another caller. -/
theorem answer_iff_admissible_authorizing :
    authorizing.Admissible {} 17 ∧ (authorizing.answer {} 17 0).value.success = true ∧
      ({ authorizing with accountNonces := [] }.answer {} 17 0).value.success = false ∧
      (authorizing.answer {} 16 0).value.error =
        some "Unauthorized sender: expected Block Production (17), got 16" := by
  have hok : authorizing.Admissible {} 17 := ⟨rfl, by decide, by decide⟩
  have hmissing : ¬ Admissible { authorizing with accountNonces := [] } {} 17 := by
    intro h
    exact absurd (h.stated (.ofNat 20 1) (by decide)) (by decide)
  have hcaller : ¬ authorizing.Admissible {} 16 := fun h => absurd h.caller (by decide)
  refine ⟨hok, (answer_iff_admissible authorizing {} 17 0).2.1.2 hok, ?_, ?_⟩
  · rw [← Bool.not_eq_true, (answer_iff_admissible _ {} 17 0).2.1]
    exact hmissing
  · rcases answer_iff_admissible authorizing {} 16 0 with ⟨_, hiff, hfault, _⟩
    rw [← Bool.not_eq_true, hiff] at hfault
    rcases hfault hcaller with ⟨refusal, hfault, hresponse⟩
    rw [hresponse]
    cases hfault with
    | caller _ => rfl
    | size h _ => exact absurd h (by decide)
    | nonce h _ _ _ _ => exact absurd h (by decide)

/-! ## Written requests -/

/-- The request that asks for the order of execution of a batch. -/
def ofBatch (b : Batch) (entries : List (Address × Nonce)) (seed : UInt64)
    (correlationId : Octets 16) (replyTo : String) : Request where
  correlationId := correlationId
  replyTo := replyTo
  transactions := b.map Payload.ofTransaction
  accountNonces := entries
  seed := seed

@[simp]
theorem batch_ofBatch (b : Batch) (entries : List (Address × Nonce)) (seed : UInt64)
    (correlationId : Octets 16) (replyTo : String) :
    (ofBatch b entries seed correlationId replyTo).batch = b := by
  have hid : Payload.toTransaction ∘ Payload.ofTransaction = id :=
    funext Payload.toTransaction_ofTransaction
  rw [batch, ofBatch, List.map_map, hid, List.map_id]

section Written

variable {b : Batch} {table : NonceTable} {entries : List (Address × Nonce)}

/-- The entries of a table are stated for every account of the batch that is sent with them. -/
theorem find?_stated_ofBatch
    (hentries : ∀ a ∈ b.senders, entries.reverse.lookup a = table.find? a) (seed : UInt64)
    (correlationId : Octets 16) (replyTo : String) (a : Address) (ha : a ∈ b.senders) :
    (ofBatch b entries seed correlationId replyTo).stated.find? a = table.find? a :=
  (NonceTable.find?_ofList entries a).trans (hentries a ha)

/-- The request for a batch is admissible if it states all nonces and is not too large. -/
theorem admissible_ofBatch (hknown : ∀ a ∈ b.senders, table.contains a = true)
    (hentries : ∀ a ∈ b.senders, entries.reverse.lookup a = table.find? a)
    (hsize : b.length ≤ s.maxBatchSize) (seed : UInt64) (correlationId : Octets 16)
    (replyTo : String) : (ofBatch b entries seed correlationId replyTo).Admissible s 17 where
  caller := rfl
  size := Nat.le_trans (Nat.le_of_eq (List.length_map ..)) hsize
  stated a ha := by
    rw [← senders_batch, batch_ofBatch] at ha
    have hfind := find?_stated_ofBatch hentries seed correlationId replyTo a ha
    rw [← contains_stated, NonceTable.contains_eq_isSome, hfind, ← NonceTable.contains_eq_isSome]
    exact hknown a ha

/-- The plan for a batch that is sent is the plan for the batch, whatever the settings. -/
theorem plan_ofBatch (hentries : ∀ a ∈ b.senders, entries.reverse.lookup a = table.find? a)
    (s : Settings) (seed : UInt64) (correlationId : Octets 16) (replyTo : String) :
    (ofBatch b entries seed correlationId replyTo).plan s =
      Settings.planWith {} b table.get seed := by
  have hget (a : Address) (ha : a ∈ b.senders) :
      (ofBatch b entries seed correlationId replyTo).stated.get a = table.get a := by
    rw [NonceTable.get, find?_stated_ofBatch hentries _ _ _ a ha, NonceTable.get]
  rw [plan, batch_ofBatch, planWith_eq, planWith_eq, Batch.givenNonces_congr hget]
  rfl

end Written

/-- A batch is answered with its order of execution when it is sent as a written request with the
nonces of a table, in any order and with earlier entries that later ones replace. -/
theorem answer_of_written_request (b : Batch) (table : NonceTable)
    (entries : List (Address × Nonce)) (seed : UInt64) (correlationId : Octets 16)
    (replyTo : String) (s : Settings) (time : UInt64)
    (hknown : ∀ a ∈ b.senders, table.contains a = true)
    (hentries : ∀ a ∈ b.senders, entries.reverse.lookup a = table.find? a)
    (hsize : b.length ≤ s.maxBatchSize) :
    ∃ r, Wire.request.read? (Wire.request.write
        (ofBatch b entries seed correlationId replyTo)) = some r ∧
      (r.answer s 17 time).value.success = true ∧
      (r.answer s 17 time).value.ordered =
        (Id.run (b.executionOrder (fun a => pure (table.get a)) seed)).mains.map
          fun a => (a.sender, a.nonce) := by
  refine ⟨_, Wire.request_lawful.read?_write trivial, ?_⟩
  have hok := admissible_ofBatch hknown hentries hsize seed correlationId replyTo
  rw [value_answer_of_admissible hok, plan_ofBatch hentries]
  refine ⟨rfl, ?_⟩
  rw [executionOrder_eq, acceptance, Plan.mains]

/-- A table for the tangled batch. -/
def tangledTable : NonceTable :=
  .ofList [(.ofNat 20 1, 0), (.ofNat 20 2, 0), (.ofNat 20 3, 5)]

/-- Its entries in another order, behind one that is replaced. -/
def tangledEntries : List (Address × Nonce) :=
  [(.ofNat 20 3, 9), (.ofNat 20 2, 0), (.ofNat 20 3, 5), (.ofNat 20 1, 0)]

theorem answer_of_written_tangled :
    (∀ a ∈ tangled.senders, tangledTable.contains a = true) ∧
      (∀ a ∈ tangled.senders, tangledEntries.reverse.lookup a = tangledTable.find? a) ∧
      tangled.length ≤ 6 ∧
      ∃ r, Wire.request.read? (Wire.request.write
          (ofBatch tangled tangledEntries 7 (.ofNat 16 1) "a \"topic\"\n")) = some r ∧
        (r.answer { maxBatchSize := 6 } 17 0).value.success = true ∧
        (r.answer { maxBatchSize := 6 } 17 0).value.ordered =
          (Id.run (tangled.executionOrder (fun a => pure (tangledTable.get a)) 7)).mains.map
            fun a => (a.sender, a.nonce) := by
  have hknown : ∀ a ∈ tangled.senders, tangledTable.contains a = true := by
    simp only [tangledTable, NonceTable.contains_ofList]
    decide
  have hentries : ∀ a ∈ tangled.senders,
      tangledEntries.reverse.lookup a = tangledTable.find? a := by
    simp only [tangledTable, NonceTable.find?_ofList]
    decide
  have hsize : tangled.length ≤ 6 := by decide
  exact ⟨hknown, hentries, hsize, answer_of_written_request tangled tangledTable tangledEntries 7
    (.ofNat 16 1) "a \"topic\"\n" { maxBatchSize := 6 } 0 hknown hentries hsize⟩

end Request

end BatchOrder
