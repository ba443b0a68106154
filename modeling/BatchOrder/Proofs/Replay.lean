import Mathlib.Data.Set.Defs
import BatchOrder.Replay

/-!
# What replaying does to the nonces

Executing a transaction spends its main action, which has to be next in turn, and then its
authorizations.  So everything about executions comes down to spending one action after another.

Main results:

- Theorem `get_spend`: the nonce of every account after an action is spent.
- Theorems `AgreesOn.replay?` and `agreesOn_of_replay?`: a replay reads and writes the nonces of the
  accounts that it names and no others.
- Theorems `raised_of_replay?` and `find?_eq_of_replay?`: a replay leaves the entries of accounts
  whose nonces do not rise, and of those that it does not name.
- Theorem `pairwise_mains_of_replay?`: in a replay the main nonces of every account rise.
-/

namespace BatchOrder

/-- The actions of a transaction are actions of the batch. -/
theorem Batch.actions_subset_of_mem {b : Batch} {tx : Transaction} (htx : tx ∈ b) :
    tx.actions ⊆ b.actions :=
  fun _ ha => List.mem_flatMap.2 ⟨tx, htx, ha⟩

/-- The main action of a transaction is an action of the batch. -/
theorem Batch.main_mem_actions {b : Batch} {tx : Transaction} (htx : tx ∈ b) :
    tx.main ∈ b.actions :=
  actions_subset_of_mem htx List.mem_cons_self

/-- A batch drawn from another has no other actions. -/
theorem Batch.actions_subset {b c : Batch} (h : c ⊆ b) : c.actions ⊆ b.actions := by
  intro a ha
  rcases List.mem_flatMap.1 ha with ⟨tx, htx, hmem⟩
  exact actions_subset_of_mem (h htx) hmem

theorem Batch.actions_cons (tx : Transaction) (b : Batch) :
    Batch.actions (tx :: b) = tx.actions ++ b.actions :=
  List.flatMap_cons

theorem Batch.mains_cons (tx : Transaction) (b : Batch) :
    Batch.mains (tx :: b) = tx.main :: b.mains :=
  List.map_cons

/-! ## Saturation -/

/-- No nonce exceeds its successor. -/
theorem Nonce.le_succ (n : Nonce) : n ≤ Nonce.succ n := by
  rw [UInt64.le_iff_toNat_le, Nonce.toNat_succ]
  have := Nonce.toNat_le_last n
  omega

/-- A nonce that is not the last lies below its successor. -/
theorem Nonce.lt_succ {n : Nonce} (hn : n < Nonce.last) : n < Nonce.succ n := by
  rw [UInt64.lt_iff_toNat_lt] at hn ⊢
  rw [Nonce.toNat_succ]
  omega

/-- Nothing lies between a nonce and its successor. -/
theorem Nonce.succ_le_of_lt {n m : Nonce} (hnm : n < m) : Nonce.succ n ≤ m := by
  rw [UInt64.lt_iff_toNat_lt] at hnm
  rw [UInt64.le_iff_toNat_le, Nonce.toNat_succ]
  omega

@[simp]
theorem Nonce.succ_last : Nonce.succ Nonce.last = Nonce.last := rfl

namespace NonceTable

/-! ## Spending actions -/

/-- Spending advances the account of an action that is next in turn, and changes no other nonce. -/
theorem get_spend (st : NonceTable) (a : Action) (s : Address) :
    (st.spend a).get s =
      if a.sender = s ∧ a.nonce = st.get s then Nonce.succ (st.get s) else st.get s := by
  unfold spend
  by_cases hs : a.sender = s
  · subst hs
    by_cases hn : a.nonce = st.get a.sender
    · simp [hn, get_advance]
    · simp [hn]
  · by_cases hn : a.nonce = st.get a.sender
    · simp [hn, hs, get_advance]
    · simp [hn, hs]

/-- Spending an action lowers no nonce. -/
theorem get_le_get_spend (st : NonceTable) (a : Action) (s : Address) :
    st.get s ≤ (st.spend a).get s := by
  rw [get_spend]
  split
  · exact Nonce.le_succ _
  · exact UInt64.le_refl _

/-- Spending several actions lowers no nonce. -/
theorem get_le_get_foldl_spend (st : NonceTable) (as : List Action) (s : Address) :
    st.get s ≤ (as.foldl spend st).get s := by
  induction as generalizing st with
  | nil => exact UInt64.le_refl _
  | cons a as ih => exact UInt64.le_trans (get_le_get_spend st a s) (ih _)

/-- Spending an action does not take its account beyond a bound that the action stands below. -/
theorem get_spend_le {st : NonceTable} {a : Action} {s : Address} {m : Nonce} (hle : st.get s ≤ m)
    (ha : a.sender = s → a.nonce = st.get s → a.nonce < m) : (st.spend a).get s ≤ m := by
  rw [get_spend]
  split
  · next hturn =>
    rw [← hturn.2]
    exact Nonce.succ_le_of_lt (ha hturn.1 hturn.2)
  · exact hle

/-- Actions below a bound do not take their account beyond it. -/
theorem get_foldl_spend_le {st : NonceTable} {as : List Action} {s : Address} {m : Nonce}
    (hle : st.get s ≤ m) (has : ∀ a ∈ as, a.sender = s → a.nonce < m) :
    (as.foldl spend st).get s ≤ m := by
  induction as generalizing st with
  | nil => exact hle
  | cons a as ih =>
      exact ih (get_spend_le hle fun hs _ => has a List.mem_cons_self hs)
        fun a' ha => has a' (List.mem_cons_of_mem _ ha)

/-- Executing a transaction is spending its actions in order, the first of them for certain. -/
theorem execute?_eq_some_iff {st u : NonceTable} {tx : Transaction} :
    st.execute? tx = some u ↔
      tx.main.nonce = st.get tx.main.sender ∧ u = tx.actions.foldl spend st := by
  unfold execute?
  by_cases hn : tx.main.nonce = st.get tx.main.sender
  · simp [hn, Transaction.actions, spend, eq_comm]
  · simp [hn]

@[simp]
theorem replay?_nil (st : NonceTable) : st.replay? [] = some st := rfl

@[simp]
theorem replay?_cons (st : NonceTable) (tx : Transaction) (b : Batch) :
    st.replay? (tx :: b) = (st.execute? tx).bind fun u => u.replay? b := rfl

/-- Batches in a row are replayed one after the other. -/
theorem replay?_append (st : NonceTable) (b c : Batch) :
    st.replay? (b ++ c) = (st.replay? b).bind fun u => u.replay? c :=
  List.foldlM_append ..

/-- A batch can be replayed if its first transaction can be executed and the others be replayed from
there. -/
theorem replay?_cons_eq_some_iff {st u : NonceTable} {tx : Transaction} {b : Batch} :
    st.replay? (tx :: b) = some u ↔ ∃ v, st.execute? tx = some v ∧ v.replay? b = some u := by
  rw [replay?_cons, Option.bind_eq_some_iff]

/-! ## Accounts that a replay does not name -/

/-- Two tables give the same nonces to the accounts of a set. -/
def AgreesOn (accounts : Set Address) (st st' : NonceTable) : Prop :=
  ∀ s ∈ accounts, st.get s = st'.get s

variable {accounts : Set Address} {st st' u u' : NonceTable}

theorem AgreesOn.refl (st : NonceTable) : AgreesOn accounts st st := fun _ _ => rfl

theorem AgreesOn.symm (h : AgreesOn accounts st st') : AgreesOn accounts st' st :=
  fun s hs => (h s hs).symm

theorem AgreesOn.trans (h : AgreesOn accounts st st') (h' : AgreesOn accounts st' u) :
    AgreesOn accounts st u :=
  fun s hs => (h s hs).trans (h' s hs)

/-- Tables that agree still do when the same actions are spent. -/
theorem AgreesOn.foldl_spend (h : AgreesOn accounts st st') (as : List Action) :
    AgreesOn accounts (as.foldl spend st) (as.foldl spend st') := by
  induction as generalizing st st' with
  | nil => exact h
  | cons a as ih =>
      apply ih
      intro s hs
      rw [get_spend, get_spend, h s hs]

/-- Tables that agree on the account of the main action admit the same transaction. -/
theorem AgreesOn.execute? {tx : Transaction} (h : AgreesOn accounts st st')
    (hmain : tx.main.sender ∈ accounts) (hexec : st.execute? tx = some u) :
    ∃ u', st'.execute? tx = some u' ∧ AgreesOn accounts u u' := by
  rcases execute?_eq_some_iff.1 hexec with ⟨hn, rfl⟩
  refine ⟨_, execute?_eq_some_iff.2 ⟨?_, rfl⟩, h.foldl_spend _⟩
  rw [hn, h _ hmain]

/-- A batch of some accounts can be replayed from every table that agrees on these, and the ends
agree as well. -/
theorem AgreesOn.replay? {b : Batch} (h : AgreesOn accounts st st')
    (hmains : ∀ tx ∈ b, tx.main.sender ∈ accounts) (hreplay : st.replay? b = some u) :
    ∃ u', st'.replay? b = some u' ∧ AgreesOn accounts u u' := by
  induction b generalizing st st' with
  | nil =>
      rcases Option.some.inj hreplay with rfl
      exact ⟨st', rfl, h⟩
  | cons tx b ih =>
      rcases replay?_cons_eq_some_iff.1 hreplay with ⟨v, hexec, hrest⟩
      rcases h.execute? (hmains tx List.mem_cons_self) hexec with ⟨v', hexec', hv⟩
      obtain ⟨u', hrest', hu⟩ :=
        ih hv (fun tx' htx => hmains tx' (List.mem_cons_of_mem _ htx)) hrest
      exact ⟨u', replay?_cons_eq_some_iff.2 ⟨v', hexec', hrest'⟩, hu⟩

/-- Spending actions of other accounts leaves the nonces of some accounts alone. -/
theorem agreesOn_foldl_spend {as : List Action} (has : ∀ a ∈ as, a.sender ∉ accounts) :
    AgreesOn accounts st (as.foldl spend st) := by
  induction as generalizing st with
  | nil => exact AgreesOn.refl st
  | cons a as ih =>
      refine AgreesOn.trans ?_ (ih fun a' ha => has a' (List.mem_cons_of_mem _ ha))
      intro s hs
      have hne : a.sender ≠ s := fun h => has a List.mem_cons_self (h ▸ hs)
      simp [get_spend, hne]

/-- An execution leaves the nonces of accounts that it does not name. -/
theorem agreesOn_of_execute? {tx : Transaction} (hexec : st.execute? tx = some u)
    (hout : ∀ a ∈ tx.actions, a.sender ∉ accounts) : AgreesOn accounts st u := by
  rcases execute?_eq_some_iff.1 hexec with ⟨_, rfl⟩
  exact agreesOn_foldl_spend hout

/-- A replay of transactions that name none of some accounts leaves their nonces alone. -/
theorem agreesOn_of_replay? {b : Batch} (hreplay : st.replay? b = some u)
    (hout : ∀ a ∈ b.actions, a.sender ∉ accounts) : AgreesOn accounts st u := by
  induction b generalizing st with
  | nil =>
      rcases Option.some.inj hreplay with rfl
      exact AgreesOn.refl st
  | cons tx b ih =>
      rcases replay?_cons_eq_some_iff.1 hreplay with ⟨v, hexec, hrest⟩
      rw [Batch.actions_cons] at hout
      exact (agreesOn_of_execute? hexec fun a ha => hout a (List.mem_append_left _ ha)).trans
        (ih hrest fun a ha => hout a (List.mem_append_right _ ha))

/-! ## Entries after a replay -/

/-- Nonces have only risen, and an account whose nonce has not risen has the entry that it had, or
none if it had none. -/
structure Raised (st u : NonceTable) : Prop where
  le : ∀ s, st.get s ≤ u.get s
  find?_eq : ∀ s, u.find? s = if u.get s = st.get s then st.find? s else some (u.get s)

theorem Raised.refl (st : NonceTable) : Raised st st where
  le _ := UInt64.le_refl _
  find?_eq _ := (if_pos rfl).symm

/-- Raising accounts twice raises them: an account that has risen the second time does not come back
to where it began. -/
theorem Raised.trans {v : NonceTable} (h : Raised st v) (h' : Raised v u) : Raised st u where
  le s := UInt64.le_trans (h.le s) (h'.le s)
  find?_eq s := by
    rw [h'.find?_eq, h.find?_eq]
    by_cases hu : u.get s = v.get s
    · rw [if_pos hu, hu]
    · have hst : u.get s ≠ st.get s := by
        intro hback
        exact hu (UInt64.le_antisymm (hback ▸ h.le s) (h'.le s))
      rw [if_neg hu, if_neg hst]

/-- Spending an action that does not have the last nonce raises its account or nothing. -/
theorem raised_spend (st : NonceTable) {a : Action} (hlast : a.nonce < Nonce.last) :
    Raised st (st.spend a) where
  le s := get_le_get_spend st a s
  find?_eq s := by
    by_cases hturn : a.sender = s ∧ a.nonce = st.get s
    · rcases hturn with ⟨rfl, hnonce⟩
      have hget : (st.spend a).get a.sender = Nonce.succ (st.get a.sender) := by
        rw [get_spend, if_pos ⟨rfl, hnonce⟩]
      have hne : Nonce.succ (st.get a.sender) ≠ st.get a.sender := by
        rw [← hnonce]
        exact Ne.symm (UInt64.ne_of_lt (Nonce.lt_succ hlast))
      rw [hget, if_neg hne, spend, if_pos hnonce, find?_advance, if_pos rfl]
    · have hget : (st.spend a).get s = st.get s := by rw [get_spend, if_neg hturn]
      rw [hget, if_pos rfl, spend]
      split
      · next hnonce =>
        have hs : a.sender ≠ s := by
          intro hs
          exact hturn ⟨hs, hs ▸ hnonce⟩
        rw [find?_advance, if_neg hs]
      · rfl

/-- A replay without last nonces only raises accounts. -/
theorem raised_of_replay? {b : Batch} (hreplay : st.replay? b = some u)
    (hlast : ∀ a ∈ b.actions, a.nonce < Nonce.last) : Raised st u := by
  have hspend (as : List Action) (has : ∀ a ∈ as, a.nonce < Nonce.last) (st : NonceTable) :
      Raised st (as.foldl spend st) := by
    induction as generalizing st with
    | nil => exact Raised.refl st
    | cons a as ih =>
        exact (raised_spend st (has a List.mem_cons_self)).trans
          (ih (fun a' ha => has a' (List.mem_cons_of_mem _ ha)) _)
  induction b generalizing st with
  | nil =>
      rcases Option.some.inj hreplay with rfl
      exact Raised.refl st
  | cons tx b ih =>
      rcases replay?_cons_eq_some_iff.1 hreplay with ⟨v, hexec, hrest⟩
      rcases execute?_eq_some_iff.1 hexec with ⟨_, rfl⟩
      rw [Batch.actions_cons] at hlast
      exact (hspend _ (fun a ha => hlast a (List.mem_append_left _ ha)) st).trans
        (ih hrest fun a ha => hlast a (List.mem_append_right _ ha))

/-- An account that no transaction of a replay names keeps its entry, or its lack of one. -/
theorem find?_eq_of_replay? {b : Batch} (hreplay : st.replay? b = some u)
    (hlast : ∀ a ∈ b.actions, a.nonce < Nonce.last) {s : Address} (hs : s ∉ b.senders) :
    u.find? s = st.find? s := by
  have hout (a : Action) (ha : a ∈ b.actions) : a.sender ∉ ({s} : Set Address) := by
    rintro rfl
    exact hs (List.mem_map_of_mem ha)
  have hget : u.get s = st.get s := (agreesOn_of_replay? hreplay hout s rfl).symm
  rw [(raised_of_replay? hreplay hlast).find?_eq, if_pos hget]

/-- Tables raised from one table are equal if they give the same nonces. -/
theorem Raised.eq_of_get_eq (h : Raised st u) (h' : Raised st u')
    (hget : ∀ s, u.get s = u'.get s) : u = u' := by
  apply ext_find?
  intro s
  rw [h.find?_eq, h'.find?_eq, hget s]

/-! ## Main actions in a replay -/

/-- Executing a transaction lowers no nonce. -/
theorem get_le_of_execute? {tx : Transaction} (hexec : st.execute? tx = some u) (s : Address) :
    st.get s ≤ u.get s := by
  rcases execute?_eq_some_iff.1 hexec with ⟨_, rfl⟩
  exact get_le_get_foldl_spend ..

/-- A replay lowers no nonce. -/
theorem get_le_of_replay? {b : Batch} (hreplay : st.replay? b = some u) (s : Address) :
    st.get s ≤ u.get s := by
  induction b generalizing st with
  | nil =>
      rcases Option.some.inj hreplay with rfl
      exact UInt64.le_refl _
  | cons tx b ih =>
      rcases replay?_cons_eq_some_iff.1 hreplay with ⟨v, hexec, hrest⟩
      exact UInt64.le_trans (get_le_of_execute? hexec s) (ih hrest)

/-- A replay takes an account no further than to a nonce that all its actions lie below. -/
theorem get_le_of_replay?_of_lt {b : Batch} (hreplay : st.replay? b = some u) {s : Address}
    {m : Nonce} (hle : st.get s ≤ m) (hb : ∀ a ∈ b.actions, a.sender = s → a.nonce < m) :
    u.get s ≤ m := by
  induction b generalizing st with
  | nil =>
      rcases Option.some.inj hreplay with rfl
      exact hle
  | cons tx b ih =>
      rcases replay?_cons_eq_some_iff.1 hreplay with ⟨v, hexec, hrest⟩
      rcases execute?_eq_some_iff.1 hexec with ⟨_, rfl⟩
      rw [Batch.actions_cons] at hb
      exact ih hrest (get_foldl_spend_le hle fun a ha => hb a (List.mem_append_left _ ha))
        fun a ha => hb a (List.mem_append_right _ ha)

/-- An execution takes the account of the main action past it. -/
theorem lt_get_of_execute? {tx : Transaction} (hexec : st.execute? tx = some u)
    (hlast : tx.main.nonce < Nonce.last) : tx.main.nonce < u.get tx.main.sender := by
  rcases execute?_eq_some_iff.1 hexec with ⟨hn, rfl⟩
  have hspent : tx.main.nonce < (st.spend tx.main).get tx.main.sender := by
    rw [get_spend, if_pos ⟨rfl, hn⟩, ← hn]
    exact Nonce.lt_succ hlast
  exact UInt64.lt_of_lt_of_le hspent (get_le_get_foldl_spend ..)

/-- A main action that a replay runs was not passed when it began. -/
theorem get_le_of_mem_replay? {b : Batch} (hreplay : st.replay? b = some u) {tx : Transaction}
    (htx : tx ∈ b) : st.get tx.main.sender ≤ tx.main.nonce := by
  induction b generalizing st with
  | nil => cases htx
  | cons tx' b ih =>
      rcases replay?_cons_eq_some_iff.1 hreplay with ⟨v, hexec, hrest⟩
      rcases List.mem_cons.1 htx with rfl | htx
      · exact UInt64.le_of_eq (execute?_eq_some_iff.1 hexec).1.symm
      · exact UInt64.le_trans (get_le_of_execute? hexec _) (ih hrest htx)

/-- A replay takes the accounts of all its main actions past them. -/
theorem lt_get_of_mem_replay? {b : Batch} (hreplay : st.replay? b = some u) {tx : Transaction}
    (htx : tx ∈ b) (hlast : tx.main.nonce < Nonce.last) :
    tx.main.nonce < u.get tx.main.sender := by
  induction b generalizing st with
  | nil => cases htx
  | cons tx' b ih =>
      rcases replay?_cons_eq_some_iff.1 hreplay with ⟨v, hexec, hrest⟩
      rcases List.mem_cons.1 htx with rfl | htx
      · exact UInt64.lt_of_lt_of_le (lt_get_of_execute? hexec hlast) (get_le_of_replay? hrest _)
      · exact ih hrest htx

/-- In a replay the main nonces of every account rise. -/
theorem pairwise_mains_of_replay? {b : Batch} (hreplay : st.replay? b = some u)
    (hlast : ∀ tx ∈ b, tx.main.nonce < Nonce.last) :
    b.mains.Pairwise fun x y => x.sender = y.sender → x.nonce < y.nonce := by
  induction b generalizing st with
  | nil => exact List.Pairwise.nil
  | cons tx b ih =>
      rcases replay?_cons_eq_some_iff.1 hreplay with ⟨v, hexec, hrest⟩
      refine List.Pairwise.cons ?_ (ih hrest fun tx' h => hlast tx' (List.mem_cons_of_mem _ h))
      intro y hy hsender
      rcases List.mem_map.1 hy with ⟨tx', htx', rfl⟩
      have hpassed := lt_get_of_execute? hexec (hlast tx List.mem_cons_self)
      rw [hsender] at hpassed
      exact UInt64.lt_of_lt_of_le hpassed (get_le_of_mem_replay? hrest htx')

/-- In a replay no main action runs twice. -/
theorem nodup_mains_of_replay? {b : Batch} (hreplay : st.replay? b = some u)
    (hlast : ∀ tx ∈ b, tx.main.nonce < Nonce.last) : b.mains.Nodup := by
  refine (pairwise_mains_of_replay? hreplay hlast).imp ?_
  rintro x y hxy rfl
  exact UInt64.lt_irrefl _ (hxy rfl)

end NonceTable

end BatchOrder
