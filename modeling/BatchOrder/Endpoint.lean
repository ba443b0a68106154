import BatchOrder.Message
import BatchOrder.Planning

/-!
# Answering requests

A request is taken up if it comes from the one caller that may make it, if it holds no more
transactions than the settings allow, and if it states the nonce of every account that it names. The
first of these conditions that fails is the reason for the refusal.

Main results:

- Theorems `value_answer_of_admissible` and `value_answer_of_firstFault`, in
  `BatchOrder.Proofs.Endpoint`: the response to a request that is taken up and to one that is
  refused.
-/

namespace BatchOrder

/-- The number of the caller that may ask for an order of execution. -/
def authorizedCaller : UInt8 := 17

namespace Request

/-- The transactions of a request. -/
def batch (r : Request) : Batch := r.transactions.map Payload.toTransaction

/-- The nonces that a request states. -/
def stated (r : Request) : NonceTable := .ofList r.accountNonces

/-- The first account named whose nonce is not stated. -/
def uncovered? (r : Request) : Option Address :=
  r.batch.senders.find? fun a => !r.stated.contains a

/-- The first reason not to take a request up. -/
def check (r : Request) (s : Settings) (caller : UInt8) : Except Refusal Unit := do
  if caller != authorizedCaller then throw (.unauthorizedCaller caller)
  if s.maxBatchSize < r.transactions.length then
    throw (.batchTooLarge r.transactions.length s.maxBatchSize)
  if let some a := r.uncovered? then throw (.missingNonce a)

/-- Answer a request. The plan starts from the nonces that the request states, and `time` is what it
took to make, in milliseconds. -/
def answer (r : Request) (s : Settings) (caller : UInt8) (time : UInt64) : Logged Response := do
  match r.check s caller with
  | .error refusal =>
    Logged.emit (.rejected caller refusal)
    return .refusal r.correlationId refusal
  | .ok () =>
    Logged.emit (.processing r.transactions.length r.replyTo)
    let plan ← Id.run (s.plan r.batch (fun a => pure (r.stated.get a)) r.seed)
    return {
      correlationId := r.correlationId
      success := true
      ordered := plan.mains.map fun a => (a.sender, a.nonce)
      metrics := .ofReport plan.report time
      error := none }

end Request

end BatchOrder
