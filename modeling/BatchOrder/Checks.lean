import Std.Data.HashMap
import Std.Data.HashSet
import BatchOrder.Transaction

/-!
# Checks on orders and clusters

Decisions that take one pass over a batch, over clusters or over a merged sequence: that main
actions differ, that nonces rise, that clusters share no account, and that a merge keeps the order
of every part.
-/

namespace BatchOrder

/-! ## Main actions -/

/-- Whether the main actions differ from those seen and from each other. -/
def mainsDistinctBeyond (seen : Std.HashSet Action) : Batch → Bool
  | [] => true
  | tx :: rest => !seen.contains tx.main && mainsDistinctBeyond (seen.insert tx.main) rest

/-- Whether no two transactions have the same main action. -/
def Batch.mainsDistinct (b : Batch) : Bool := mainsDistinctBeyond ∅ b

/-- Whether every main nonce exceeds the one before of the same account, given the latest nonce of
every account so far. -/
def noncesRiseBeyond (latest : Std.HashMap Address Nonce) : Batch → Bool
  | [] => true
  | { main := ⟨a, n⟩, .. } :: rest =>
    latest[a]?.all (· < n) && noncesRiseBeyond (latest.insert a n) rest

/-- Whether the main nonces of every account rise. -/
def Batch.noncesRise (b : Batch) : Bool := noncesRiseBeyond ∅ b

/-! ## Clusters -/

/-- Enter accounts as owned by a cluster; `none` if one has another owner already. -/
def claimAccounts (cluster : Nat) (owners : Std.HashMap Address Nat) :
    List Address → Option (Std.HashMap Address Nat)
  | [] => some owners
  | a :: rest =>
    if owners.getD a cluster = cluster then claimAccounts cluster (owners.insert a cluster) rest
    else none

/-- Enter the accounts of every cluster as its own; `none` if two clusters share one. -/
def claimAll (owners : Std.HashMap Address Nat) : List (Batch × Nat) →
    Option (Std.HashMap Address Nat)
  | [] => some owners
  | (b, i) :: rest => (claimAccounts i owners b.senders).bind (claimAll · rest)

/-- Whether no account is named in two of the clusters. -/
def accountsDisjoint (clusters : List Batch) : Bool := (claimAll ∅ clusters.zipIdx).isSome

/-! ## Merges -/

universe u

variable {α : Type u} [BEq α] [Hashable α]

/-- The list and the position in it of every element; of several positions the last counts. -/
def places (lists : List (List α)) : Std.HashMap α (Nat × Nat) :=
  lists.zipIdx.foldl
    (fun m l => l.1.zipIdx.foldl (fun m e => m.insert e.1 (l.2, e.2)) m) ∅

/-- Whether every element has a place, and one not before the next free position of its list. -/
def inPlaces (place : Std.HashMap α (Nat × Nat)) (next : Std.HashMap Nat Nat) : List α → Bool
  | [] => true
  | x :: rest =>
    match place[x]? with
    | none => false
    | some (l, i) => next.getD l 0 ≤ i && inPlaces place (next.insert l (i + 1)) rest

/-- Whether a sequence holds only elements of the lists and keeps the order of every list. -/
def keepsOrder (lists : List (List α)) (merged : List α) : Bool :=
  inPlaces (places lists) ∅ merged

end BatchOrder
