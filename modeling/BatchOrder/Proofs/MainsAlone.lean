import Mathlib.Data.List.Perm.Lattice
import BatchOrder.Proofs.Independence
import BatchOrder.Proofs.Lookup
import BatchOrder.Proofs.Spending

/-!
# Batches without authorizations

If no transaction carries authorizations, a plan can be told from the batch at once.  An account
runs its main actions in the order of their nonces, from its present nonce on, up to the first nonce
that the batch does not have.  Pruning keeps exactly these actions, and scheduling leaves none of
them over: an account that stopped within its run would be left with a transaction that is next in
turn.

Main results:

- Theorem `mem_mains_prune_iff`: the main actions that pruning keeps.
- Theorem `mem_mains_iff_of_settles`: what settles the pruned batch leaves no main action out.
- Theorem `plan_without_authorizations`: the plan of a batch without authorizations.
-/

namespace BatchOrder

open NonceTable

/-- An action with a later nonce that the main actions of a batch lead up to: they have every nonce
from the present one of its account to its own. -/
structure Batch.LeadsTo (b : Batch) (provider : Address → Nonce) (a : Action) : Prop where
  not_passed : provider a.sender ≤ a.nonce
  lt_last : a.nonce < Nonce.last
  mains : ∀ n, provider a.sender ≤ n → n ≤ a.nonce → ⟨a.sender, n⟩ ∈ b.mains

/-- What the main actions lead up to is one of them. -/
theorem Batch.LeadsTo.mem_mains {b : Batch} {provider : Address → Nonce} {a : Action}
    (h : b.LeadsTo provider a) : a ∈ b.mains :=
  h.mains a.nonce h.not_passed (UInt64.le_refl _)

/-- What the main actions lead up to is an action of an account that the batch names. -/
theorem Batch.LeadsTo.sender_mem_senders {b : Batch} {provider : Address → Nonce} {a : Action}
    (h : b.LeadsTo provider a) : a.sender ∈ b.senders := by
  rcases List.mem_map.1 h.mem_mains with ⟨tx, htx, rfl⟩
  exact mains_mem_named htx

/-! ## Pruning -/

section Pruning

variable {b : Batch} {st : NonceTable} {tx : Transaction}
variable (hauth : ∀ tx ∈ b, tx.auth = [])
include hauth

/-- Without authorizations the actions are the main actions. -/
theorem mem_actions_candidates_iff {a : Action} : a ∈ b.candidates.actions ↔ a ∈ b.mains := by
  constructor
  · intro ha
    rcases List.mem_flatMap.1 ha with ⟨tx, htx, hmem⟩
    rcases List.mem_map.1 htx with ⟨tx', htx', rfl⟩
    have hin : tx' ∈ b := (sublist_keepFirst _ _).subset htx'
    have hnone : tx'.satisfiable.auth = [] := by
      rw [Transaction.satisfiable, hauth tx' hin]
      rfl
    rw [Transaction.actions, hnone, List.mem_singleton] at hmem
    rw [hmem]
    exact List.mem_map.2 ⟨tx', hin, rfl⟩
  · intro ha
    rcases List.mem_map.1 ha with ⟨tx, htx, rfl⟩
    exact main_mem_actions_candidates htx

/-- A transaction that is kept is the first with its main action. -/
theorem find?_of_mem_prune (htx : tx ∈ b.prune st) :
    b.find? (fun tx' => tx'.main = tx.main) = some tx := by
  rcases mem_prune.1 htx with ⟨tx', htx', _, rfl⟩
  have hnone : tx'.auth = [] := hauth tx' ((sublist_keepFirst _ _).subset htx')
  have hsame : (⟨tx'.main, (keepFirst id tx'.auth).filter
      (tx'.retains st (b.candidates.runEnds st))⟩ : Transaction) = tx' := by
    rw [hnone]
    exact congrArg (Transaction.mk tx'.main) hnone.symm
  rw [hsame]
  exact find?_of_mem_keepFirst htx'

/-- The actions that are reached are those that the main actions lead up to. -/
theorem reaches_iff_leadsTo {provider : Address → Nonce} {a : Action} :
    reaches (b.givenNonces provider) (b.candidates.runEnds (b.givenNonces provider)) a ↔
      b.LeadsTo provider a := by
  rw [reaches_iff_forall, find?_givenNonces]
  by_cases hs : a.sender ∈ b.senders
  · rw [if_pos hs, get_givenNonces hs]
    simp only [Option.isSome_some, true_and, mem_actions_candidates_iff hauth]
    constructor
    · rintro ⟨hpassed, hlast, hmains⟩
      exact ⟨hpassed, hlast, hmains⟩
    · rintro ⟨hpassed, hlast, hmains⟩
      exact ⟨hpassed, hlast, hmains⟩
  · rw [if_neg hs]
    exact iff_of_false (by simp) fun hleads => hs hleads.sender_mem_senders

/-- Pruning keeps exactly the main actions that the batch leads up to. -/
theorem mem_mains_prune_iff {provider : Address → Nonce} {a : Action} :
    a ∈ (b.prune (b.givenNonces provider)).mains ↔ b.LeadsTo provider a := by
  constructor
  · intro ha
    rcases List.mem_map.1 ha with ⟨tx, htx, rfl⟩
    exact (reaches_iff_leadsTo hauth).1 (reaches_of_mem_prune (Batch.main_mem_actions htx))
  · intro hleads
    rcases List.mem_map.1 hleads.mem_mains with ⟨tx, htx, rfl⟩
    rcases main_mem_prune htx ((reaches_iff_leadsTo hauth).2 hleads) with ⟨tx', htx', hmain⟩
    rw [← hmain]
    exact List.mem_map_of_mem htx'

end Pruning

/-! ## Scheduling -/

section Scheduling

variable {b order : Batch} {provider : Address → Nonce}
variable (hauth : ∀ tx ∈ b, tx.auth = [])
include hauth

/-- The main actions of an account in an order that settles the pruned batch have consecutive
nonces. -/
theorem nonces_mains_of_settles
    (hsettles : Settles (b.givenNonces provider) (b.prune (b.givenNonces provider)) order)
    {final : NonceTable} (hreplay : (b.givenNonces provider).replay? order = some final)
    (s : Address) :
    (order.mains.filter (·.sender = s)).map (·.nonce.toNat) =
      List.range' ((b.givenNonces provider).get s).toNat
        ((final.get s).toNat - ((b.givenNonces provider).get s).toNat) := by
  have hnone (tx : Transaction) (htx : tx ∈ order) : tx.auth = [] := by
    rcases exists_sublist_of_mem_prune (hsettles.subset htx) with ⟨tx', htx', _, hauth'⟩
    rw [hauth tx' htx'] at hauth'
    exact List.sublist_nil.1 hauth'
  have hlast (a : Action) (ha : a ∈ order.mains) : a.nonce < Nonce.last := by
    rcases List.mem_map.1 ha with ⟨tx, htx, rfl⟩
    exact main_lt_last_of_mem_prune (hsettles.subset htx)
  have hfinal := eq_foldl_spend_of_replay? hreplay
  rw [Batch.actions_eq_mains hnone] at hfinal
  rw [hfinal, ← nonces_spent hlast, spent_mains_of_replay? hnone hreplay]

/-- An order that settles the pruned batch leaves none of its main actions out: no account stops
within its run, as the transaction there would be next in turn. -/
theorem mem_mains_iff_of_settles
    (hsettles : Settles (b.givenNonces provider) (b.prune (b.givenNonces provider)) order)
    {a : Action} : a ∈ order.mains ↔ b.LeadsTo provider a := by
  rw [← mem_mains_prune_iff hauth]
  refine ⟨fun ha => List.map_subset _ hsettles.subset ha, fun ha => ?_⟩
  have hleads := (mem_mains_prune_iff hauth).1 ha
  have hget : (b.givenNonces provider).get a.sender = provider a.sender :=
    get_givenNonces hleads.sender_mem_senders
  rcases hsettles.exhausts with ⟨final, hreplay, hnone⟩
  have hstart := get_le_of_replay? hreplay a.sender
  rw [hget] at hstart
  have hpassed : a.nonce < final.get a.sender := by
    apply UInt64.not_le.1
    intro hstop
    have hleads' : b.LeadsTo provider ⟨a.sender, final.get a.sender⟩ :=
      ⟨hstart, UInt64.lt_of_le_of_lt hstop hleads.lt_last,
        fun n hn hle => hleads.mains n hn (UInt64.le_trans hle hstop)⟩
    rcases List.mem_map.1 ((mem_mains_prune_iff hauth).2 hleads') with ⟨tx, htx, hmain⟩
    apply hnone tx htx
    rw [hmain]
  have hmem : a.nonce.toNat ∈ (order.mains.filter (·.sender = a.sender)).map (·.nonce.toNat) := by
    rw [nonces_mains_of_settles hauth hsettles hreplay, hget, List.mem_range'_1]
    have hle := UInt64.le_iff_toNat_le.1 hleads.not_passed
    rw [UInt64.lt_iff_toNat_lt] at hpassed
    omega
  rcases List.mem_map.1 hmem with ⟨a', ha', hnonce⟩
  rcases List.mem_filter.1 ha' with ⟨ha', hsender⟩
  have heq : a' = a :=
    congr (congrArg Action.mk (of_decide_eq_true hsender)) (UInt64.toNat_inj.1 hnonce)
  exact heq ▸ ha'

/-- An order that settles the pruned batch has its main actions once each. -/
theorem perm_mains_of_settles
    (hsettles : Settles (b.givenNonces provider) (b.prune (b.givenNonces provider)) order) :
    order.mains.Perm (b.prune (b.givenNonces provider)).mains := by
  have hnodup := hsettles.nodup_mains fun _ => main_lt_last_of_mem_prune
  rw [List.perm_ext_iff_of_nodup hnodup (nodup_mains_prune _ _)]
  intro a
  rw [mem_mains_iff_of_settles hauth hsettles, mem_mains_prune_iff hauth]

end Scheduling

/-! ## Plans -/

/-- Without authorizations nothing that can be scheduled is lost.  A plan has every main action that
the main actions lead up to, once and as the first transaction with it; those of every account have
consecutive nonces from the one that the provider gives; and all that pruning keeps is scheduled. -/
theorem plan_without_authorizations (s : Settings) {b : Batch} (hauth : ∀ tx ∈ b, tx.auth = [])
    (provider : Address → Nonce) (seed : UInt64) :
    (∀ a, a ∈ (s.planWith b provider seed).mains ↔ b.LeadsTo provider a) ∧
      (s.planWith b provider seed).mains.Nodup ∧
      (∀ tx ∈ (s.planWith b provider seed).transactions,
        b.find? (fun tx' => tx'.main = tx.main) = some tx) ∧
      (∀ account, ∃ n,
        ((s.planWith b provider seed).mains.filter (·.sender = account)).map (·.nonce.toNat) =
          List.range' (provider account).toNat n) ∧
      (s.planWith b provider seed).report.scheduled =
        (s.planWith b provider seed).report.cleaned := by
  rw [planWith_eq]
  have hsettles := settles_mergedPlan b seed (b.givenNonces provider)
  rcases hsettles.exhausts with ⟨final, hreplay, _⟩
  have hmains (a : Action) : a ∈ (b.mergedPlan seed (b.givenNonces provider)).mains ↔
      b.LeadsTo provider a := mem_mains_iff_of_settles hauth hsettles
  refine ⟨hmains, hsettles.nodup_mains fun _ => main_lt_last_of_mem_prune,
    fun tx htx => find?_of_mem_prune hauth (hsettles.subset htx), fun account => ?_, ?_⟩
  · have hnonces := nonces_mains_of_settles hauth hsettles hreplay account
    by_cases hnamed : account ∈ b.senders
    · rw [get_givenNonces hnamed] at hnonces
      exact ⟨_, hnonces⟩
    · have hnone : (b.mergedPlan seed (b.givenNonces provider)).mains.filter (·.sender = account) =
          [] := by
        rw [List.filter_eq_nil_iff]
        intro a ha hsender
        exact hnamed (of_decide_eq_true hsender ▸ ((hmains a).1 ha).sender_mem_senders)
      refine ⟨0, ?_⟩
      rw [hnone, List.map_nil, List.range'_zero]
  · have hlength := (perm_mains_of_settles hauth hsettles).length_eq
    rw [Batch.mains, Batch.mains, List.length_map, List.length_map] at hlength
    rw [Batch.scheduled_mergedPlan, Batch.cleaned_mergedPlan, hlength]

/-- Runs of three accounts: one with a repeat and a gap, one that begins past a stale nonce, and one
that does not begin at all. -/
def staircase : Batch :=
  [⟨⟨.ofNat 20 1, 1⟩, []⟩, ⟨⟨.ofNat 20 3, 6⟩, []⟩, ⟨⟨.ofNat 20 1, 0⟩, []⟩, ⟨⟨.ofNat 20 3, 4⟩, []⟩,
    ⟨⟨.ofNat 20 1, 1⟩, []⟩, ⟨⟨.ofNat 20 2, 1⟩, []⟩, ⟨⟨.ofNat 20 1, 3⟩, []⟩, ⟨⟨.ofNat 20 3, 5⟩, []⟩]

theorem plan_staircase :
    (∀ tx ∈ staircase, tx.auth = []) ∧
      (∀ a, a ∈ (Settings.planWith {} staircase pastTheGap 7).mains ↔
        staircase.LeadsTo pastTheGap a) ∧
      (Settings.planWith {} staircase pastTheGap 7).mains.Nodup ∧
      (∀ tx ∈ (Settings.planWith {} staircase pastTheGap 7).transactions,
        staircase.find? (fun tx' => tx'.main = tx.main) = some tx) ∧
      (∀ account, ∃ n, ((Settings.planWith {} staircase pastTheGap 7).mains.filter
          (·.sender = account)).map (·.nonce.toNat) =
        List.range' (pastTheGap account).toNat n) ∧
      (Settings.planWith {} staircase pastTheGap 7).report.scheduled =
        (Settings.planWith {} staircase pastTheGap 7).report.cleaned :=
  ⟨by decide, plan_without_authorizations {} (by decide) pastTheGap 7⟩

end BatchOrder
