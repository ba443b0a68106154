import BatchOrder.Proofs.Json.Codec
import BatchOrder.Wire

/-!
# Written forms are read back

All codecs of exchanged types are lawful: they are put together from lawful codecs, and no record
has two fields of one name.  Counts are kept as natural numbers, but no more than 64 bits of them
are ever read; so reports, plans and settings are read back if their counts fit.

Main results:

- Theorems `action_lawful` to `response_lawful`: every codec is lawful.
- Theorem `written_forms_round_trip`: whatever is exchanged is read back from its written form.
-/

namespace BatchOrder

/-- The counts of a report fit into 64 bits. -/
def Report.Fits (r : Report) : Prop :=
  r.input < UInt64.size ∧ r.cleaned < UInt64.size ∧ r.clusters < UInt64.size ∧
    r.largest < UInt64.size ∧ r.scheduled < UInt64.size

/-- The limits of settings fit into 64 bits. -/
def Settings.Fits (s : Settings) : Prop :=
  s.maxBatchSize < UInt64.size ∧ s.parallelThreshold < UInt64.size

namespace Wire

open Codec

/-! ## Lawful codecs -/

/-- Addresses are read back. -/
theorem address_lawful : address.Lawful fun _ => True where
  plain a := text_lawful.plain a.text
  decode?_encode a _ := by
    simp only [address]
    rw [show text.decode? (Json.text a.text) = some a.text from rfl, Option.bind_some,
      Address.ofText?_text]
  admits_of_decode? _ _ _ := trivial

theorem action_lawful : action.Lawful fun _ => True :=
  (record_lawful (by decide) <|
    Fields.cons_lawful address_lawful <|
    Fields.cons_lawful word64_lawful Fields.nil_lawful).xmap (fun _ => rfl) (by simp) (by simp)

theorem transaction_lawful : transaction.Lawful fun _ => True :=
  (record_lawful (by decide) <|
    Fields.cons_lawful action_lawful <|
    Fields.cons_lawful (list_lawful action_lawful) Fields.nil_lawful).xmap
    (fun _ => rfl) (by simp) (by simp)

/-- Reports are read back if their counts have 64 bits. -/
theorem report_lawful : report.Lawful Report.Fits :=
  (record_lawful (by decide) <|
    Fields.cons_lawful count_lawful <|
    Fields.cons_lawful count_lawful <|
    Fields.cons_lawful count_lawful <|
    Fields.cons_lawful count_lawful <|
    Fields.cons_lawful count_lawful Fields.nil_lawful).xmap
    (fun _ => rfl) (by simp [Report.Fits]) (by simp [Report.Fits])

/-- Plans are read back if the counts of their reports have 64 bits. -/
theorem plan_lawful : plan.Lawful fun p => p.report.Fits :=
  (record_lawful (by decide) <|
    Fields.cons_lawful (list_lawful transaction_lawful) <|
    Fields.cons_lawful report_lawful Fields.nil_lawful).xmap
    (fun _ => rfl) (by simp) (by simp)

/-- Settings are read back if their limits have 64 bits. -/
theorem settings_lawful : settings.Lawful Settings.Fits :=
  (record_lawful (by decide) <|
    Fields.cons_lawful count_lawful <|
    Fields.cons_lawful bool_lawful <|
    Fields.cons_lawful count_lawful Fields.nil_lawful).xmap
    (fun _ => rfl) (by simp [Settings.Fits]) (by simp [Settings.Fits])

example : settings.write {} =
    "\x7b\"max_batch_size\":10000,\"parallel_sorting\":true,\"parallel_threshold\":4\x7d" := by
  cbv

theorem entries_lawful : entries.Lawful fun _ => True := by
  have h := list_lawful (pair_lawful (octets_lawful 20) word64_lawful)
  exact ⟨h.plain, fun xs _ => h.decode?_encode xs (by simp), fun _ _ _ => trivial⟩

theorem payload_lawful : payload.Lawful fun _ => True :=
  (record_lawful (by decide) <|
    Fields.cons_lawful (octets_lawful 20) <|
    Fields.cons_lawful word64_lawful <|
    Fields.cons_lawful entries_lawful Fields.nil_lawful).xmap (fun _ => rfl) (by simp) (by simp)

theorem request_lawful : request.Lawful fun _ => True :=
  (record_lawful (by decide) <|
    Fields.cons_lawful (octets_lawful 16) <|
    Fields.cons_lawful text_lawful <|
    Fields.cons_lawful (list_lawful payload_lawful) <|
    Fields.cons_lawful entries_lawful <|
    Fields.cons_lawful word64_lawful Fields.nil_lawful).xmap (fun _ => rfl) (by simp) (by simp)

theorem metrics_lawful : metrics.Lawful fun _ => True :=
  (record_lawful (by decide) <|
    Fields.cons_lawful word32_lawful <|
    Fields.cons_lawful word32_lawful <|
    Fields.cons_lawful word32_lawful <|
    Fields.cons_lawful word32_lawful <|
    Fields.cons_lawful word32_lawful <|
    Fields.cons_lawful word64_lawful Fields.nil_lawful).xmap (fun _ => rfl) (by simp) (by simp)

theorem response_lawful : response.Lawful fun _ => True :=
  (record_lawful (by decide) <|
    Fields.cons_lawful (octets_lawful 16) <|
    Fields.cons_lawful bool_lawful <|
    Fields.cons_lawful entries_lawful <|
    Fields.cons_lawful metrics_lawful <|
    Fields.consWith_lawful (option_lawful text_lawful fun _ h => by cases h)
      Fields.nil_lawful).xmap (fun _ => rfl) (by simp) (by simp)

/-! ## Round trips -/

/-- Whatever is exchanged is read back from its written form, if its counts fit into 64 bits; and
whatever is read from some text, in this form or another, is read again when it is written anew. -/
theorem written_forms_round_trip :
    action.RoundTrips (fun _ => True) ∧ transaction.RoundTrips (fun _ => True) ∧
      report.RoundTrips Report.Fits ∧ plan.RoundTrips (fun p => p.report.Fits) ∧
      settings.RoundTrips Settings.Fits ∧ payload.RoundTrips (fun _ => True) ∧
      request.RoundTrips (fun _ => True) ∧ response.RoundTrips (fun _ => True) ∧
      metrics.RoundTrips (fun _ => True) :=
  ⟨action_lawful.roundTrips, transaction_lawful.roundTrips, report_lawful.roundTrips,
    plan_lawful.roundTrips, settings_lawful.roundTrips, payload_lawful.roundTrips,
    request_lawful.roundTrips, response_lawful.roundTrips, metrics_lawful.roundTrips⟩

/-- A plan of one transaction, with the greatest address, the greatest nonce and the greatest
counts. -/
def fullPlan : Plan where
  transactions :=
    [⟨⟨.ofNat 20 0xFFFFFFFFFFFFFFFFFFFFFFFFFFFFFFFFFFFFFFFF, Nonce.last⟩, [⟨.ofNat 20 0, 0⟩]⟩]
  report := ⟨UInt64.size - 1, UInt64.size - 1, UInt64.size - 1, UInt64.size - 1, UInt64.size - 1⟩

/-- A response whose error holds what strings escape, and characters beyond the first 128. -/
def oddResponse : Response where
  correlationId := .ofNat 16 0xFFFFFFFFFFFFFFFFFFFFFFFFFFFFFFFF
  success := false
  ordered := [(.ofNat 20 1, Nonce.last), (.ofNat 20 1, Nonce.last)]
  metrics := ⟨0xFFFFFFFF, 0, 0, 0, 0, Nonce.last⟩
  error := some "\" \\ \x00 \n \x1f \x7f é \u20ac 😀"

theorem written_forms_round_trip_full :
    fullPlan.report.Fits ∧ plan.read? (plan.write fullPlan) = some fullPlan ∧
      response.read? (response.write oddResponse) = some oddResponse := by
  have hfits : fullPlan.report.Fits := by unfold Report.Fits; decide
  rcases written_forms_round_trip with ⟨_, _, _, hplan, _, _, _, hresponse, _⟩
  exact ⟨hfits, hplan.read?_write _ hfits, hresponse.read?_write _ trivial⟩

end Wire

end BatchOrder
