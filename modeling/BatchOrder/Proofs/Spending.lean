import Mathlib.Data.List.Basic
import BatchOrder.Proofs.Replay

/-!
# What is spent of every account

Of actions in a row those are spent that are next in turn when they are reached.  Spending advances
the account by one.  So the nonces that are spent of an account are consecutive: the first is the
one that the account has, and the last the one before that which it gets to.

Main results:

- Theorem `spent_append`: what is spent of two lists in a row.
- Theorem `nonces_spent`: the nonces that are spent of an account are consecutive.
- Theorem `eq_foldl_spend_of_replay?`: a replay spends the actions of its transactions in order.
- Theorem `spent_mains_of_replay?`: a replay without authorizations spends every main action.
-/

namespace BatchOrder

/-- Without authorizations there are only main actions. -/
theorem Batch.actions_eq_mains {b : Batch} (hauth : ∀ tx ∈ b, tx.auth = []) :
    b.actions = b.mains := by
  have hactions (tx : Transaction) (htx : tx ∈ b) : tx.actions = [tx.main] :=
    congrArg (List.cons tx.main) (hauth tx htx)
  calc b.actions = b.flatMap fun tx => [tx.main] := List.flatMap_congr hactions
    _ = b.mains := List.map_eq_flatMap.symm

namespace NonceTable

/-- Those of some actions in a row that are next in turn when they are reached. -/
def spent (st : NonceTable) : List Action → List Action
  | [] => []
  | a :: as => if a.nonce = st.get a.sender then a :: (st.spend a).spent as else st.spent as

/-- Spending an action that is next in turn raises the nonce of its account by one. -/
theorem toNat_get_spend {st : NonceTable} {a : Action} (hturn : a.nonce = st.get a.sender)
    (hlast : a.nonce < Nonce.last) : ((st.spend a).get a.sender).toNat = a.nonce.toNat + 1 := by
  rw [get_spend, if_pos ⟨rfl, hturn⟩, ← hturn, Nonce.toNat_succ]
  rw [UInt64.lt_iff_toNat_lt] at hlast
  omega

/-- What is spent of a further list depends on where the first has led. -/
theorem spent_append (st : NonceTable) (as bs : List Action) :
    st.spent (as ++ bs) = st.spent as ++ (as.foldl spend st).spent bs := by
  induction as generalizing st with
  | nil => rfl
  | cons a as ih =>
      rw [List.cons_append, spent, spent, List.foldl_cons]
      by_cases hturn : a.nonce = st.get a.sender
      · rw [if_pos hturn, if_pos hturn, ih, List.cons_append]
      · have hspend : st.spend a = st := if_neg hturn
        rw [if_neg hturn, if_neg hturn, ih, hspend]

/-- The nonces that are spent of an account are consecutive, from the one that the account has to
the one before that which it gets to. -/
theorem nonces_spent {as : List Action} (hlast : ∀ a ∈ as, a.nonce < Nonce.last) (st : NonceTable)
    (s : Address) :
    ((st.spent as).filter (·.sender = s)).map (·.nonce.toNat) =
      List.range' (st.get s).toNat (((as.foldl spend st).get s).toNat - (st.get s).toNat) := by
  induction as generalizing st with
  | nil => simp [spent]
  | cons a as ih =>
      rcases List.forall_mem_cons.1 hlast with ⟨ha, hlast⟩
      have hrest := ih hlast (st.spend a)
      rw [spent, List.foldl_cons]
      by_cases hturn : a.nonce = st.get a.sender
      · rw [if_pos hturn]
        by_cases hs : a.sender = s
        · subst hs
          have hnext := toNat_get_spend hturn ha
          have hle := UInt64.le_iff_toNat_le.1 (get_le_get_foldl_spend (st.spend a) as a.sender)
          rw [hnext] at hrest hle
          have hlength : ((as.foldl spend (st.spend a)).get a.sender).toNat - a.nonce.toNat =
              ((as.foldl spend (st.spend a)).get a.sender).toNat - (a.nonce.toNat + 1) + 1 := by
            omega
          rw [List.filter_cons_of_pos (by simp), List.map_cons, hrest, ← hturn, hlength,
            List.range'_succ]
        · have hget : (st.spend a).get s = st.get s := by
            rw [get_spend, if_neg fun h => hs h.1]
          rw [List.filter_cons_of_neg (by simpa using hs), hrest, hget]
      · have hspend : st.spend a = st := if_neg hturn
        rw [hspend] at hrest
        rw [if_neg hturn, hrest, hspend]

variable {st u : NonceTable} {b : Batch}

/-- A replay spends the actions of its transactions in order. -/
theorem eq_foldl_spend_of_replay? (hreplay : st.replay? b = some u) :
    u = b.actions.foldl spend st := by
  induction b generalizing st with
  | nil => exact (Option.some.inj hreplay).symm
  | cons tx b ih =>
      rcases replay?_cons_eq_some_iff.1 hreplay with ⟨v, hexec, hrest⟩
      rcases execute?_eq_some_iff.1 hexec with ⟨_, rfl⟩
      rw [Batch.actions_cons, List.foldl_append]
      exact ih hrest

/-- A replay without authorizations spends every main action. -/
theorem spent_mains_of_replay? (hauth : ∀ tx ∈ b, tx.auth = []) (hreplay : st.replay? b = some u) :
    st.spent b.mains = b.mains := by
  induction b generalizing st with
  | nil => rfl
  | cons tx b ih =>
      rcases List.forall_mem_cons.1 hauth with ⟨htx, hauth⟩
      rcases replay?_cons_eq_some_iff.1 hreplay with ⟨v, hexec, hrest⟩
      rcases execute?_eq_some_iff.1 hexec with ⟨hturn, rfl⟩
      have hspend : tx.actions.foldl spend st = st.spend tx.main := by
        rw [Transaction.actions, htx, List.foldl_cons, List.foldl_nil]
      rw [hspend] at hrest
      rw [Batch.mains_cons, spent, if_pos hturn, ih hauth hrest]

end NonceTable

end BatchOrder
