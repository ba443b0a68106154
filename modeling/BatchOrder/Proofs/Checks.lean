import Mathlib.Data.List.Pairwise
import BatchOrder.Checks

/-!
# What the checks on batches decide

A check takes one pass and compares each entry with a summary of those before it: the main actions
seen, the latest nonce of every account, or the first owner of an account.  What it decides is said
of all pairs of positions.  The summary stands for the part already passed, so every statement is
made for an arbitrary summary first: what follows agrees with the summary and with itself.

Main results:

- Theorem `mainsDistinctBeyond_iff`: the main actions differ from those seen and from each other.
- Theorem `noncesRiseBeyond_iff`: it is enough to compare with the latest nonce, as nonces that rise
  step by step rise between any two places.
- Theorem `isSome_claimAll_iff`: no account has an owner other than the clusters that name it.
- Theorem `checks_decide`: the three checks, told by positions.
-/

namespace BatchOrder

/-! ## Pairs of positions -/

/-- What holds one way of two elements if it holds the other way holds of all pairs if it holds of
any two places. -/
theorem pairwise_iff_forall_ne {α : Type} {r : α → α → Prop} (hsymm : ∀ {x y}, r x y → r y x)
    {xs : List α} :
    xs.Pairwise r ↔ ∀ i j : Fin xs.length, i ≠ j → r (xs.get i) (xs.get j) := by
  rw [List.pairwise_iff_get]
  constructor
  · intro h i j hij
    rcases Nat.lt_or_gt_of_ne (Fin.val_ne_of_ne hij) with hlt | hgt
    · exact h i j hlt
    · exact hsymm (h j i hgt)
  · intro h i j hij
    exact h i j (Fin.ne_of_lt hij)

/-! ## Main actions -/

/-- Main actions differ from those noted before and from each other. -/
theorem mainsDistinctBeyond_iff (seen : Std.HashSet Action) (b : Batch) :
    mainsDistinctBeyond seen b = true ↔
      (∀ tx ∈ b, tx.main ∉ seen) ∧ b.Pairwise fun tx tx' => tx.main ≠ tx'.main := by
  induction b generalizing seen with
  | nil => simp [mainsDistinctBeyond]
  | cons tx b ih =>
      have hnew : (!seen.contains tx.main) = true ↔ tx.main ∉ seen := by
        rw [Bool.not_eq_true', ← Bool.not_eq_true, Std.HashSet.mem_iff_contains]
      have hrest : (∀ tx' ∈ b, tx'.main ∉ seen.insert tx.main) ↔
          (∀ tx' ∈ b, tx.main ≠ tx'.main) ∧ ∀ tx' ∈ b, tx'.main ∉ seen := by
        simp only [Std.HashSet.mem_insert, beq_iff_eq, not_or, forall_and]
      rw [mainsDistinctBeyond, Bool.and_eq_true, hnew, ih, hrest, List.forall_mem_cons,
        List.pairwise_cons]
      constructor
      · rintro ⟨hfirst, ⟨hdiffer, hlater⟩, hpairs⟩
        exact ⟨⟨hfirst, hlater⟩, hdiffer, hpairs⟩
      · rintro ⟨⟨hfirst, hlater⟩, hdiffer, hpairs⟩
        exact ⟨hfirst, ⟨hdiffer, hlater⟩, hpairs⟩

/-- The first check decides whether all main actions are different. -/
theorem mainsDistinct_iff (b : Batch) :
    b.mainsDistinct = true ↔ b.Pairwise fun tx tx' => tx.main ≠ tx'.main := by
  rw [Batch.mainsDistinct, mainsDistinctBeyond_iff]
  exact and_iff_right fun _ _ => Std.HashSet.not_mem_empty

/-- The later of two transactions has the greater main nonce, if they are of one account. -/
def Transaction.RisesTo (tx tx' : Transaction) : Prop :=
  tx.main.sender = tx'.main.sender → tx.main.nonce < tx'.main.nonce

/-- Main nonces rise above the latest ones noted and from each transaction to every later one of its
account.  Noting only the latest is enough: what lies above a nonce lies above all that it has risen
from. -/
theorem noncesRiseBeyond_iff (latest : Std.HashMap Address Nonce) (b : Batch) :
    noncesRiseBeyond latest b = true ↔
      (∀ tx ∈ b, ∀ n, latest[tx.main.sender]? = some n → n < tx.main.nonce) ∧
        b.Pairwise Transaction.RisesTo := by
  induction b generalizing latest with
  | nil => simp [noncesRiseBeyond]
  | cons tx b ih =>
      have hhead : latest[tx.main.sender]?.all (· < tx.main.nonce) = true ↔
          ∀ n, latest[tx.main.sender]? = some n → n < tx.main.nonce := by
        simp only [Option.all_eq_true, decide_eq_true_eq]
      have hget (s : Address) : (latest.insert tx.main.sender tx.main.nonce)[s]? =
          if tx.main.sender = s then some tx.main.nonce else latest[s]? := by
        simp only [Std.HashMap.getElem?_insert, beq_iff_eq]
      rw [noncesRiseBeyond, Bool.and_eq_true, hhead, ih, List.forall_mem_cons, List.pairwise_cons]
      constructor
      · rintro ⟨hfirst, hlater, hpairs⟩
        have hrises (tx' : Transaction) (htx' : tx' ∈ b) : tx.RisesTo tx' := by
          intro hsame
          exact hlater tx' htx' _ (by rw [hget, if_pos hsame])
        refine ⟨⟨hfirst, fun tx' htx' n hn => ?_⟩, hrises, hpairs⟩
        by_cases hsame : tx.main.sender = tx'.main.sender
        · exact UInt64.lt_trans (hfirst n (hsame ▸ hn)) (hrises tx' htx' hsame)
        · exact hlater tx' htx' n (by rw [hget, if_neg hsame, hn])
      · rintro ⟨⟨hfirst, hlater⟩, hrises, hpairs⟩
        refine ⟨hfirst, fun tx' htx' n hn => ?_, hpairs⟩
        rw [hget] at hn
        split at hn
        · next hsame =>
          rcases Option.some.inj hn with rfl
          exact hrises tx' htx' hsame
        · exact hlater tx' htx' n hn

/-- The second check decides whether the main nonces of every account rise. -/
theorem noncesRise_iff (b : Batch) :
    b.noncesRise = true ↔ b.Pairwise Transaction.RisesTo := by
  rw [Batch.noncesRise, noncesRiseBeyond_iff]
  exact and_iff_right fun _ _ n hn => by simp at hn

/-! ## Clusters -/

/-- Accounts can be entered as owned by a cluster if none of them has another owner. -/
theorem isSome_claimAccounts_iff (cluster : Nat) (owners : Std.HashMap Address Nat)
    (as : List Address) :
    (claimAccounts cluster owners as).isSome ↔
      ∀ a ∈ as, ∀ owner, owners[a]? = some owner → owner = cluster := by
  induction as generalizing owners with
  | nil => simp [claimAccounts]
  | cons a as ih =>
      have hfree : owners.getD a cluster = cluster ↔
          ∀ owner, owners[a]? = some owner → owner = cluster := by
        rw [Std.HashMap.getD_eq_getD_getElem?]
        cases owners[a]? <;> simp
      rw [claimAccounts, List.forall_mem_cons, ← hfree]
      split
      · next hown =>
        rw [ih, and_iff_right hown]
        refine forall₂_congr fun x _ => ?_
        rw [Std.HashMap.getElem?_insert]
        by_cases hax : a = x
        · subst hax
          simpa using hfree.1 hown
        · simp [hax]
      · next hother => simp [hother]

/-- Once accounts are entered as owned by a cluster, the cluster owns them, and all other accounts
have the owners that they had. -/
theorem getElem?_claimAccounts {cluster : Nat} {owners owners' : Std.HashMap Address Nat}
    {as : List Address} (h : claimAccounts cluster owners as = some owners') (x : Address) :
    owners'[x]? = if x ∈ as then some cluster else owners[x]? := by
  induction as generalizing owners with
  | nil =>
      rcases Option.some.inj h with rfl
      rfl
  | cons a as ih =>
      rw [claimAccounts] at h
      split at h
      · rw [ih h, Std.HashMap.getElem?_insert]
        by_cases hxa : x = a
        · simp [hxa]
        · simp [hxa, Ne.symm hxa]
      · cases h

/-- Clusters can be entered one after another if no account has another owner and clusters with
different numbers name none in common. -/
theorem isSome_claimAll_iff (owners : Std.HashMap Address Nat) (clusters : List (Batch × Nat)) :
    (claimAll owners clusters).isSome ↔
      (∀ c ∈ clusters, ∀ s ∈ c.1.senders, ∀ owner, owners[s]? = some owner → owner = c.2) ∧
        clusters.Pairwise fun c d => c.2 ≠ d.2 → ∀ s ∈ c.1.senders, s ∉ d.1.senders := by
  induction clusters generalizing owners with
  | nil => simp [claimAll]
  | cons c rest ih =>
      have hclaim := isSome_claimAccounts_iff c.2 owners c.1.senders
      rw [List.forall_mem_cons, List.pairwise_cons, ← hclaim, claimAll]
      cases hown : claimAccounts c.2 owners c.1.senders with
      | none => simp
      | some owners' =>
          rw [hown] at hclaim
          have hfree := hclaim.1 rfl
          rw [Option.bind_some, ih, Option.isSome_some, and_iff_right rfl, ← and_assoc]
          apply and_congr_left'
          have hget := getElem?_claimAccounts hown
          constructor
          · intro hlater
            refine ⟨fun d hd s hs owner howner => ?_, fun d hd hcd s hs hs' => ?_⟩
            · by_cases hsc : s ∈ c.1.senders
              · rw [hfree s hsc owner howner]
                exact hlater d hd s hs c.2 (by rw [hget, if_pos hsc])
              · exact hlater d hd s hs owner (by rw [hget, if_neg hsc, howner])
            · exact hcd (hlater d hd s hs' c.2 (by rw [hget, if_pos hs]))
          · rintro ⟨hlater, hapart⟩ d hd s hs owner howner
            rw [hget] at howner
            split at howner
            · next hsc =>
              rcases Option.some.inj howner with rfl
              by_contra hcd
              exact hapart d hd hcd s hsc hs
            · exact hlater d hd s hs owner howner

/-- The third check decides whether different clusters name different accounts. -/
theorem accountsDisjoint_iff (clusters : List Batch) :
    accountsDisjoint clusters = true ↔
      clusters.Pairwise fun c d => ∀ s ∈ c.senders, s ∉ d.senders := by
  have hnone : ∀ c ∈ clusters.zipIdx, ∀ s ∈ c.1.senders, ∀ owner,
      (∅ : Std.HashMap Address Nat)[s]? = some owner → owner = c.2 := by simp
  rw [accountsDisjoint, isSome_claimAll_iff, and_iff_right hnone, List.pairwise_iff_getElem,
    List.pairwise_iff_getElem]
  simp only [List.length_zipIdx, List.getElem_zipIdx, Nat.zero_add]
  constructor
  · exact fun h i j hi hj hij => h i j hi hj hij (Nat.ne_of_lt hij)
  · exact fun h i j hi hj hij _ => h i j hi hj hij

/-! ## The checks by positions -/

/-- The checks decide what they are named for.  Main actions are found distinct exactly if those at
any two positions differ.  Nonces are found to rise exactly if of any two positions with main
actions of one account, adjacent or not, the later has the greater nonce.  Clusters are found
disjoint exactly if those at any two positions name no account in common, be it for a main action or
for an authorization. -/
theorem checks_decide (b : Batch) (clusters : List Batch) :
    (b.mainsDistinct = true ↔
      ∀ i j : Fin b.length, i ≠ j → (b.get i).main ≠ (b.get j).main) ∧
    (b.noncesRise = true ↔
      ∀ i j : Fin b.length, i < j → (b.get i).main.sender = (b.get j).main.sender →
        (b.get i).main.nonce < (b.get j).main.nonce) ∧
    (accountsDisjoint clusters = true ↔
      ∀ i j : Fin clusters.length, i ≠ j →
        ∀ s ∈ (clusters.get i).senders, s ∉ (clusters.get j).senders) := by
  refine ⟨?_, ?_, ?_⟩
  · rw [mainsDistinct_iff]
    exact pairwise_iff_forall_ne Ne.symm
  · rw [noncesRise_iff]
    exact List.pairwise_iff_get
  · rw [accountsDisjoint_iff]
    exact pairwise_iff_forall_ne fun h s hs hs' => h s hs' hs

end BatchOrder
