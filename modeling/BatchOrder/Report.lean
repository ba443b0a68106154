import BatchOrder.Transaction

/-!
# Reports, plans and refusals

What the ordering of a batch answers: the transactions in their order of execution, the counts taken
on the way, and the reasons for which a request is refused.
-/

namespace BatchOrder

/-- The counts taken while a batch is ordered. -/
structure Report where
  /-- Transactions submitted. -/
  input : Nat
  /-- Transactions left after pruning. -/
  cleaned : Nat
  /-- Clusters of transactions that share no account with each other. -/
  clusters : Nat
  /-- Transactions in the largest cluster. -/
  largest : Nat
  /-- Transactions in the order of execution. -/
  scheduled : Nat
deriving DecidableEq, Inhabited

/-- Submitted transactions that the order of execution leaves out. -/
def Report.dropped (r : Report) : Nat := r.input - r.scheduled

/-- An order of execution with its report. -/
structure Plan where
  transactions : Batch
  report : Report
deriving DecidableEq, Inhabited

/-- The main actions in the order of execution. -/
def Plan.mains (p : Plan) : List Action := p.transactions.mains

/-- The reasons for which an order of execution is refused. -/
inductive Refusal where
  /-- The request holds more transactions than the settings allow. -/
  | batchTooLarge (size max : Nat)
  /-- The request comes from a caller that may not make it. -/
  | unauthorizedCaller (caller : UInt8)
  /-- The request names an account whose nonce it does not state. -/
  | missingNonce (account : Address)
  /-- The settings cannot be worked with. -/
  | invalidSettings (reason : String)
deriving DecidableEq, Inhabited

/-- The wording of a refusal. -/
def Refusal.message : Refusal → String
  | batchTooLarge size max => s!"Batch size exceeded: {size} > {max}"
  | unauthorizedCaller caller =>
    s!"Unauthorized sender: expected Block Production (17), got {caller}"
  | missingNonce account => "Missing account nonce for sender " ++ account.text
  | invalidSettings reason => "Invalid configuration: " ++ reason

end BatchOrder
