import BatchOrder.Report

/-!
# Requests and responses

What is exchanged with a caller that wants the order of execution of a batch. The caller is not
named in a request: it is known from the envelope.

Main results:

- Theorems `toTransaction_ofTransaction` and `ofTransaction_toTransaction`: the two forms of a
  transaction hold the same.
-/

namespace BatchOrder

/-- A transaction as it is sent, with accounts and nonces in pairs. -/
structure Payload where
  sender : Address
  nonce : Nonce
  authorizations : List (Address × Nonce)
deriving DecidableEq, Inhabited

namespace Payload

/-- The transaction that was sent. -/
def toTransaction (p : Payload) : Transaction where
  main := ⟨p.sender, p.nonce⟩
  auth := p.authorizations.map fun e => ⟨e.1, e.2⟩

/-- A transaction in the form in which it is sent. -/
def ofTransaction (tx : Transaction) : Payload where
  sender := tx.main.sender
  nonce := tx.main.nonce
  authorizations := tx.auth.map fun a => (a.sender, a.nonce)

/-- A transaction comes back from the form that it has in a message. -/
@[simp] theorem toTransaction_ofTransaction (tx : Transaction) :
    (ofTransaction tx).toTransaction = tx := by
  cases tx
  simp [ofTransaction, toTransaction, Function.comp_def]

/-- The form in a message comes back from the transaction. -/
@[simp] theorem ofTransaction_toTransaction (p : Payload) :
    ofTransaction p.toTransaction = p := by
  cases p
  simp [ofTransaction, toTransaction, Function.comp_def]

end Payload

/-- A call for the order of execution of a batch. -/
structure Request where
  /-- What the response is recognised by. -/
  correlationId : Octets 16
  /-- Where the response goes. -/
  replyTo : String
  transactions : List Payload
  /-- The next nonce of every account named; of several for one account the last counts. -/
  accountNonces : List (Address × Nonce)
  /-- What decides where clusters meet. -/
  seed : UInt64
deriving DecidableEq, Inhabited

/-- The counts that a response carries, cut to 32 bits, with the time taken in milliseconds. -/
structure Metrics where
  total : UInt32
  cleaned : UInt32
  clusters : UInt32
  largest : UInt32
  scheduled : UInt32
  time : UInt64
deriving DecidableEq, Inhabited

/-- All counts are zero. -/
def Metrics.zero : Metrics := ⟨0, 0, 0, 0, 0, 0⟩

/-- The counts of a report. -/
def Metrics.ofReport (r : Report) (time : UInt64) : Metrics where
  total := r.input.toUInt32
  cleaned := r.cleaned.toUInt32
  clusters := r.clusters.toUInt32
  largest := r.largest.toUInt32
  scheduled := r.scheduled.toUInt32
  time := time

/-- The answer to a request. -/
structure Response where
  correlationId : Octets 16
  success : Bool
  /-- The main actions in the order of execution. -/
  ordered : List (Address × Nonce)
  metrics : Metrics
  /-- The wording of the refusal, if the request was refused. -/
  error : Option String
deriving DecidableEq, Inhabited

/-- The answer to a request that was refused. -/
def Response.refusal (correlationId : Octets 16) (r : Refusal) : Response where
  correlationId := correlationId
  success := false
  ordered := []
  metrics := .zero
  error := some r.message

end BatchOrder
