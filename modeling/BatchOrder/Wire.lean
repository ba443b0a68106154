import BatchOrder.Json.Codec
import BatchOrder.Message
import BatchOrder.Settings

/-!
# Written forms

The JSON forms of actions, transactions, plans and their reports, settings, requests and responses.
An account is a hexadecimal text inside of an action and an array of bytes inside of a message.

Main results:

- Theorems `Wire.address_lawful` to `Wire.response_lawful`, in `BatchOrder.Proofs.Wire`: what is
  written in these forms is read back, and nothing else is read.
-/

namespace BatchOrder.Wire

open Codec

/-- Addresses as texts. -/
def address : Codec Address where
  encode a := Json.text a.text
  decode? v := (text.decode? v).bind Address.ofText?

/-- Actions. -/
def action : Codec Action :=
  (record <| .cons "sender" address <| .cons "nonce" word64 .nil).xmap
    (fun (sender, nonce, _) => { sender, nonce })
    (fun a => (a.sender, a.nonce, ()))

/-- Transactions. -/
def transaction : Codec Transaction :=
  (record <| .cons "main" action <| .cons "auth" (list action) .nil).xmap
    (fun (main, auth, _) => { main, auth })
    (fun tx => (tx.main, tx.auth, ()))

/-- Reports. -/
def report : Codec Report :=
  (record <|
    .cons "input_transactions" count <|
    .cons "cleaned_transactions" count <|
    .cons "partitions" count <|
    .cons "largest_partition" count <|
    .cons "scheduled_transactions" count .nil).xmap
    (fun (input, cleaned, clusters, largest, scheduled, _) =>
      { input, cleaned, clusters, largest, scheduled })
    (fun r => (r.input, r.cleaned, r.clusters, r.largest, r.scheduled, ()))

/-- Plans. -/
def plan : Codec Plan :=
  (record <| .cons "transactions" (list transaction) <| .cons "report" report .nil).xmap
    (fun (transactions, report, _) => { transactions, report })
    (fun p => (p.transactions, p.report, ()))

/-- Settings. -/
def settings : Codec Settings :=
  (record <|
    .cons "max_batch_size" count <|
    .cons "parallel_sorting" bool <|
    .cons "parallel_threshold" count .nil).xmap
    (fun (maxBatchSize, parallelSorting, parallelThreshold, _) =>
      { maxBatchSize, parallelSorting, parallelThreshold })
    (fun s => (s.maxBatchSize, s.parallelSorting, s.parallelThreshold, ()))

/-- Accounts with nonces, in pairs. -/
def entries : Codec (List (Address × Nonce)) := list (pair (octets 20) word64)

/-- Transactions as they are sent. -/
def payload : Codec Payload :=
  (record <|
    .cons "sender" (octets 20) <|
    .cons "nonce" word64 <|
    .cons "authorizations" entries .nil).xmap
    (fun (sender, nonce, authorizations, _) => { sender, nonce, authorizations })
    (fun p => (p.sender, p.nonce, p.authorizations, ()))

/-- Requests. -/
def request : Codec Request :=
  (record <|
    .cons "correlation_id" (octets 16) <|
    .cons "reply_to" text <|
    .cons "transactions" (list payload) <|
    .cons "account_nonces" entries <|
    .cons "seed" word64 .nil).xmap
    (fun (correlationId, replyTo, transactions, accountNonces, seed, _) =>
      { correlationId, replyTo, transactions, accountNonces, seed })
    (fun r => (r.correlationId, r.replyTo, r.transactions, r.accountNonces, r.seed, ()))

/-- Metrics. -/
def metrics : Codec Metrics :=
  (record <|
    .cons "total_transactions" word32 <|
    .cons "cleaned_transactions" word32 <|
    .cons "partitions" word32 <|
    .cons "largest_partition" word32 <|
    .cons "scheduled_transactions" word32 <|
    .cons "ordering_time_ms" word64 .nil).xmap
    (fun (total, cleaned, clusters, largest, scheduled, time, _) =>
      { total, cleaned, clusters, largest, scheduled, time })
    (fun m => (m.total, m.cleaned, m.clusters, m.largest, m.scheduled, m.time, ()))

/-- Responses. A missing error is one that is null. -/
def response : Codec Response :=
  (record <|
    .cons "correlation_id" (octets 16) <|
    .cons "success" bool <|
    .cons "ordered" entries <|
    .cons "metrics" metrics <|
    .consWith "error" (some .null) (option text) .nil).xmap
    (fun (correlationId, success, ordered, metrics, error, _) =>
      { correlationId, success, ordered, metrics, error })
    (fun r => (r.correlationId, r.success, r.ordered, r.metrics, r.error, ()))

end BatchOrder.Wire
