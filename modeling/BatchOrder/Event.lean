import BatchOrder.Report

/-!
# Events

What the ordering of a batch tells an observer while it goes on. Events are values: a logged
computation is a result with the events of its run, and it is the same computation whether anyone
looks at the events or not.

Main results:

- Instance of `LawfulMonad`: logged computations are a monad.
- Theorem `Logged.events_bind`: events are kept in order.
-/

namespace BatchOrder

/-- What an observer is told. -/
inductive Event where
  /-- Transactions with the main action of an earlier one were dropped. -/
  | droppedDuplicates (removed : Nat)
  /-- Authorizations that can never hold were dropped. -/
  | droppedAuthorizations (removed : Nat)
  /-- Transactions that cannot be reached were dropped, and authorizations from the others. -/
  | droppedUnreachable (removed stripped : Nat)
  /-- The batch was divided into clusters. -/
  | clustered (accounts links clusters : Nat)
  /-- The clusters are sorted apart from each other. -/
  | sortingApart (clusters : Nat)
  /-- A transaction with this main action comes next. -/
  | scheduling (main : Action)
  /-- A cluster came to a stop with transactions left. -/
  | stalled (scheduled left : Nat)
  /-- The order of execution is settled. -/
  | decided (report : Report)
  /-- A request was refused. -/
  | rejected (caller : UInt8) (refusal : Refusal)
  /-- A request was taken up. -/
  | processing (transactions : Nat) (replyTo : String)
deriving DecidableEq

/-- How much an event matters, in rising order. -/
inductive Level where
  | trace
  | debug
  | info
  | warn
deriving DecidableEq

/-- The value of a field of an event. -/
inductive Field where
  | count (n : Nat)
  | text (s : String)
deriving DecidableEq

namespace Event

/-- The level at which an event is reported. -/
def level : Event → Level
  | scheduling _ => .trace
  | decided _ | processing .. => .info
  | rejected .. => .warn
  | _ => .debug

/-- The wording of an event. -/
def message : Event → String
  | droppedDuplicates _ => "Removed duplicate transactions"
  | droppedAuthorizations _ => "Removed unsatisfiable authorizations"
  | droppedUnreachable .. => "Removed unreachable actions"
  | clustered .. => "Partitioned batch"
  | sortingApart _ => "Sorting partitions in parallel"
  | scheduling _ => "Scheduling transaction"
  | stalled .. => "Partition stalled"
  | decided _ => "Execution order decided"
  | rejected .. => "Rejected ExecutionOrderRequest"
  | processing .. => "Processing ExecutionOrderRequest"

/-- The named values that an event carries. -/
def fields : Event → List (String × Field)
  | droppedDuplicates removed => [("removed", .count removed)]
  | droppedAuthorizations removed => [("removed", .count removed)]
  | droppedUnreachable removed stripped =>
    [("removed", .count removed), ("stripped_authorizations", .count stripped)]
  | clustered accounts links clusters =>
    [("senders", .count accounts), ("edges", .count links), ("partitions", .count clusters)]
  | sortingApart clusters => [("partitions", .count clusters)]
  | scheduling main => [("action", .text main.text)]
  | stalled scheduled left => [("scheduled", .count scheduled), ("stalled", .count left)]
  | decided r =>
    [("tx_count", .count r.input), ("cleaned", .count r.cleaned),
     ("partitions", .count r.clusters), ("largest_partition", .count r.largest),
     ("scheduled", .count r.scheduled), ("dropped", .count r.dropped)]
  | rejected caller refusal =>
    [("sender_id", .count caller.toNat), ("error", .text refusal.message)]
  | processing transactions replyTo =>
    [("tx_count", .count transactions), ("reply_to", .text replyTo)]

end Event

/-! ## Logged computations -/

/-- A result with the events of the run that gave it, in order. -/
structure Logged (α : Type) where
  value : α
  events : List Event

namespace Logged

variable {α β : Type}

instance : Monad Logged where
  pure a := ⟨a, []⟩
  bind x f := ⟨(f x.value).value, x.events ++ (f x.value).events⟩

/-- Report one event. -/
def emit (e : Event) : Logged Unit := ⟨(), [e]⟩

/-- Report an event if a condition holds. -/
def emitIf (condition : Bool) (e : Event) : Logged Unit := ⟨(), if condition then [e] else []⟩

@[simp] theorem value_pure (a : α) : (pure a : Logged α).value = a := rfl

@[simp] theorem events_pure (a : α) : (pure a : Logged α).events = [] := rfl

@[simp] theorem value_bind (x : Logged α) (f : α → Logged β) :
    (x >>= f).value = (f x.value).value := rfl

/-- The events of computations in a row follow one another. -/
@[simp] theorem events_bind (x : Logged α) (f : α → Logged β) :
    (x >>= f).events = x.events ++ (f x.value).events := rfl

@[simp] theorem events_emit (e : Event) : (emit e).events = [e] := rfl

/-- An event is reported if its condition holds, and none otherwise. -/
@[simp] theorem events_emitIf (condition : Bool) (e : Event) :
    (emitIf condition e).events = if condition then [e] else [] := rfl

instance : LawfulMonad Logged :=
  LawfulMonad.mk' _ (fun x => by simp [Functor.map]) (fun _ _ => rfl)
    (fun _ _ _ => by simp [bind])

end Logged

end BatchOrder
