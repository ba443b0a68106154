import BatchOrder.Proofs.Replay
import BatchOrder.Schedule.Score
import BatchOrder.Schedule.WatchList

/-!
# Who has to be scored anew

A watch list holds, for every action, exactly the positions of the transactions that name the
account at that nonce, at the one before or at the one after.  A transaction is entered for every
action that asks for it, and a repetition is only noticed if it follows at once.  As transactions
are entered one after another, all entries of a position stand together, and one of them is kept.

When an account advances, the score of every transaction that does not watch it stays what it was.

Main results:

- Theorem `mem_watched_iff`: what an action makes its transaction watch, without saturation.
- Theorem `watchersOf_ofBatch`: the watchers of an action, read off the batch.
- Theorem `mem_watchersOf_ofBatch`: who watches an action.
- Theorem `score_advance_of_unwatched`: who does not watch an action keeps the score.
-/

namespace BatchOrder

/-! ## Nonces next to one another -/

/-- Two actions of one account with nonces that differ by one at most.  Nonces count as numbers
here: none comes before zero and none after the last one. -/
def Action.Near (a k : Action) : Prop :=
  a.sender = k.sender ∧
    (a.nonce.toNat + 1 = k.nonce.toNat ∨ a.nonce = k.nonce ∨ a.nonce.toNat = k.nonce.toNat + 1)

instance (a k : Action) : Decidable (a.Near k) := inferInstanceAs (Decidable (_ ∧ _))

namespace WatchList

/-- Where a nonce saturates, an action watches itself once more and nothing else. -/
theorem mem_watched_iff {a k : Action} : k ∈ watched a ↔ a.Near k := by
  rcases a with ⟨s, m⟩
  rcases k with ⟨t, n⟩
  have hm := Nonce.toNat_le_last m
  have hn := Nonce.toNat_le_last n
  simp only [watched, Action.pred, Action.succ, Action.Near, List.mem_cons, List.not_mem_nil,
    or_false, Action.mk.injEq, ← and_or_left, ← UInt64.toNat_inj, Nonce.toNat_pred,
    Nonce.toNat_succ, eq_comm (a := t)]
  refine and_congr_right fun _ => ?_
  omega

/-! ## Entering positions -/

/-- Put a position in front of others, unless it is the first of them already. -/
def enterFirst (i : Nat) : List Nat → List Nat
  | [] => [i]
  | j :: rest => if j = i then j :: rest else i :: j :: rest

/-- Entering a position twice in a row enters it once. -/
theorem enterFirst_enterFirst (i : Nat) (positions : List Nat) :
    enterFirst i (enterFirst i positions) = enterFirst i positions := by
  cases positions with
  | nil => simp [enterFirst]
  | cons j rest =>
      by_cases hj : j = i
      · simp [enterFirst, hj]
      · simp [enterFirst, hj]

theorem enterFirst_of_lt {i : Nat} {positions : List Nat} (h : ∀ j ∈ positions, i < j) :
    enterFirst i positions = i :: positions := by
  cases positions with
  | nil => rfl
  | cons j rest => exact if_neg (Nat.ne_of_gt (h j List.mem_cons_self))

/-- Registering a position enters it for its action and leaves all others alone. -/
theorem watchersOf_register (w : WatchList) (i : Nat) (a k : Action) :
    (w.register i a).watchersOf k =
      if a = k then enterFirst i (w.watchersOf k) else w.watchersOf k := by
  unfold register watchersOf
  rw [Std.HashMap.getD_alter, Std.HashMap.getD_eq_getD_getElem?]
  by_cases hak : a = k
  · subst hak
    simp only [beq_self_eq_true, if_true]
    cases hw : w.watchers[a]? with
    | none => rfl
    | some known =>
        cases known with
        | nil => rfl
        | cons j rest => rfl
  · simp [hak]

/-- However a position is entered for an action, if to enter it twice is to enter it once, then to
enter it for several actions is to enter it once for each of them. -/
theorem watchersOf_foldl {enter : Nat → List Nat → List Nat}
    {add : WatchList → Nat → Action → WatchList}
    (hadd : ∀ w i a k, (add w i a).watchersOf k =
      if a = k then enter i (w.watchersOf k) else w.watchersOf k)
    (htwice : ∀ i positions, enter i (enter i positions) = enter i positions)
    (w : WatchList) (i : Nat) (as : List Action) (k : Action) :
    (as.foldl (add · i) w).watchersOf k =
      if k ∈ as then enter i (w.watchersOf k) else w.watchersOf k := by
  induction as generalizing w with
  | nil => simp
  | cons a as ih =>
      rw [List.foldl_cons, ih, hadd]
      by_cases hak : a = k
      · subst hak
        simp [htwice]
      · simp [hak, Ne.symm hak]

/-! ## The watchers of an action -/

/-- A transaction watches an action if one of its own actions makes it do so. -/
def Watches (tx : Transaction) (k : Action) : Prop := ∃ a ∈ tx.actions, k ∈ watched a

/-- The positions, counted from `i` on, of the transactions of a batch that watch an action. -/
def places (i : Nat) (b : Batch) (k : Action) : List Nat :=
  ((b.zipIdx i).filter fun e => k ∈ e.1.actions.flatMap watched).map Prod.snd

theorem places_cons (i : Nat) (tx : Transaction) (b : Batch) (k : Action) :
    places i (tx :: b) k =
      if k ∈ tx.actions.flatMap watched then i :: places (i + 1) b k else places (i + 1) b k := by
  unfold places
  rw [List.zipIdx_cons, List.filter_cons]
  by_cases hk : k ∈ tx.actions.flatMap watched
  · simp only [hk, decide_true, if_true, List.map_cons]
  · simp only [hk, decide_false, Bool.false_eq_true, if_false]

/-- No position is counted before the first. -/
theorem le_of_mem_places {i j : Nat} {b : Batch} {k : Action} (hj : j ∈ places i b k) : i ≤ j := by
  rcases List.mem_map.1 hj with ⟨e, he, rfl⟩
  exact List.le_snd_of_mem_zipIdx (List.mem_filter.1 he).1

/-- Positions are counted upwards. -/
theorem pairwise_places (i : Nat) (b : Batch) (k : Action) :
    (places i b k).Pairwise (· < ·) := by
  have hall : ((b.zipIdx i).map Prod.snd).Pairwise (· < ·) := by
    rw [List.zipIdx_map_snd]
    exact List.pairwise_lt_range' 1
  exact hall.sublist (List.filter_sublist.map Prod.snd)

/-- The watchers of an action are the positions of the transactions that watch it. -/
theorem watchersOf_ofBatchFrom (i : Nat) (b : Batch) (k : Action) :
    (ofBatchFrom i b).watchersOf k = places i b k := by
  induction b generalizing i with
  | nil => simp [ofBatchFrom, watchersOf, places]
  | cons tx b ih =>
      have hlater : ∀ j ∈ places (i + 1) b k, i < j := fun j hj => le_of_mem_places hj
      rw [ofBatchFrom, watchersOf_foldl watchersOf_register enterFirst_enterFirst, ih, places_cons,
        enterFirst_of_lt hlater]

/-- The watchers of an action are the positions of the transactions that watch it, in order. -/
theorem watchersOf_ofBatch (b : Batch) (k : Action) : (ofBatch b).watchersOf k = places 0 b k :=
  watchersOf_ofBatchFrom 0 b k

/-- A position is a watcher of an action exactly if the transaction there watches it. -/
theorem mem_watchersOf_ofBatch {b : Batch} {k : Action} {j : Nat} :
    j ∈ (ofBatch b).watchersOf k ↔ ∃ tx, b[j]? = some tx ∧ Watches tx k := by
  rw [watchersOf_ofBatch, places, List.mem_map]
  simp only [List.mem_filter, decide_eq_true_eq, List.mem_flatMap]
  constructor
  · rintro ⟨⟨tx, i⟩, ⟨hmem, hw⟩, rfl⟩
    exact ⟨tx, List.mk_mem_zipIdx_iff_getElem?.1 hmem, hw⟩
  · rintro ⟨tx, hj, hw⟩
    exact ⟨(tx, j), ⟨List.mk_mem_zipIdx_iff_getElem?.2 hj, hw⟩, rfl⟩

/-- Erasing an action takes its watchers away and leaves all others alone. -/
theorem watchersOf_erase (w : WatchList) (a k : Action) :
    (w.erase a).watchersOf k = if a = k then [] else w.watchersOf k := by
  unfold erase watchersOf
  rw [Std.HashMap.getD_erase]
  simp

end WatchList

/-! ## Scores that stay -/

/-- An action that does not make its transaction watch another is neither that action nor the next
of its account. -/
theorem ne_of_not_mem_watched {a k : Action} (hk : k ∉ WatchList.watched a)
    (hlast : k.nonce < Nonce.last) (hsender : k.sender = a.sender) :
    a.nonce ≠ k.nonce ∧ a.nonce ≠ Nonce.succ k.nonce := by
  have hfar : ¬ a.Near k := fun hnear => hk (WatchList.mem_watched_iff.2 hnear)
  constructor
  · intro hn
    exact hfar ⟨hsender.symm, .inr (.inl hn)⟩
  · intro hn
    have hnext : a.nonce.toNat = k.nonce.toNat + 1 := by
      rw [UInt64.lt_iff_toNat_lt] at hlast
      rw [hn, Nonce.toNat_succ]
      omega
    exact hfar ⟨hsender.symm, .inr (.inr hnext)⟩

/-- What an advance does to the turn of an action that does not watch it: nothing. -/
theorem turn_advance_iff {st : NonceTable} {a k : Action} (hk : k ∉ WatchList.watched a)
    (hturn : st.get k.sender = k.nonce) (hlast : k.nonce < Nonce.last) :
    ((st.advance k.sender).get a.sender = a.nonce ↔ st.get a.sender = a.nonce) ∧
      ((st.advance k.sender).get a.sender < a.nonce ↔ st.get a.sender < a.nonce) := by
  rw [NonceTable.get_advance]
  by_cases hsender : k.sender = a.sender
  · rcases ne_of_not_mem_watched hk hlast hsender with ⟨hne, hsucc⟩
    rw [if_pos hsender, ← hsender, hturn]
    refine ⟨⟨fun h => absurd h.symm hsucc, fun h => absurd h.symm hne⟩, ?_, ?_⟩
    · exact fun h => UInt64.lt_of_le_of_lt (Nonce.le_succ _) h
    · exact fun h => UInt64.lt_of_le_of_ne (Nonce.succ_le_of_lt h) (Ne.symm hsucc)
  · rw [if_neg hsender]
    exact ⟨Iff.rfl, Iff.rfl⟩

/-- Advancing an account past an action, whether the action waits afterwards or not, keeps the score
of every transaction that does not watch it. -/
theorem score_advance_of_unwatched {st : NonceTable} {pending pending' : Std.HashSet Action}
    {tx : Transaction} {k : Action} (hun : ¬ WatchList.Watches tx k)
    (hturn : st.get k.sender = k.nonce) (hlast : k.nonce < Nonce.last)
    (hpending : ∀ a, a ≠ k → pending'.contains a = pending.contains a) :
    tx.score (st.advance k.sender) pending' = tx.score st pending := by
  have hout (a : Action) (ha : a ∈ tx.actions) : k ∉ WatchList.watched a :=
    fun hk => hun ⟨a, ha, hk⟩
  have hauth (a : Action) (ha : a ∈ tx.auth) : a ∈ tx.actions := List.mem_cons_of_mem _ ha
  have hmain := (turn_advance_iff (hout tx.main List.mem_cons_self) hturn hlast).1
  have hcolliding : (tx.auth.countP fun a =>
      a.nonce = (st.advance k.sender).get a.sender && pending'.contains a) =
      tx.auth.countP fun a => a.nonce = st.get a.sender && pending.contains a := by
    apply List.countP_congr
    intro a ha
    have hne : a ≠ k := by
      rintro rfl
      exact hout a (hauth a ha) (by simp [WatchList.watched])
    simp only [Bool.and_eq_true, decide_eq_true_eq, hpending a hne, eq_comm (a := a.nonce),
      (turn_advance_iff (hout a (hauth a ha)) hturn hlast).1]
  have hblocked : (tx.auth.countP fun a => (st.advance k.sender).get a.sender < a.nonce) =
      tx.auth.countP fun a => st.get a.sender < a.nonce := by
    apply List.countP_congr
    intro a ha
    simp only [decide_eq_true_eq, (turn_advance_iff (hout a (hauth a ha)) hturn hlast).2]
  simp only [Transaction.score, hcolliding, hblocked, hmain]

end BatchOrder
