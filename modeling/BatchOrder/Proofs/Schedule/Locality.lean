import BatchOrder.Proofs.Schedule.Watching

/-!
# How far an advance reaches

It makes no difference from which end of a batch the watch lists are filled: the watchers of an
action are the transactions that name its account at most one nonce away from it.  When the account
advances past the action, all others stand as before, whether or not the action has waited until
then as the main action of a transaction.

Main results:

- Theorem `watchersOf_inOrder`: the watchers if the lists are filled from front to back.
- Theorem `watchers_cover_advance`: whose score may change in an advance.
-/

namespace BatchOrder

namespace WatchList

/-! ## Filling the lists from front to back -/

/-- Put a position behind others, unless it is the last of them already. -/
def enterLast (i : Nat) (positions : List Nat) : List Nat :=
  if positions.getLast? = some i then positions else positions ++ [i]

/-- Entering a position twice in a row enters it once. -/
theorem enterLast_enterLast (i : Nat) (positions : List Nat) :
    enterLast i (enterLast i positions) = enterLast i positions := by
  unfold enterLast
  by_cases hlast : positions.getLast? = some i
  · simp [hlast]
  · simp [hlast]

theorem enterLast_of_lt {i : Nat} {positions : List Nat} (h : ∀ j ∈ positions, j < i) :
    enterLast i positions = positions ++ [i] := by
  apply if_neg
  intro hlast
  exact Nat.lt_irrefl i (h i (List.mem_of_getLast? hlast))

/-- Put a position behind the watchers of an action, unless it is the last of them already. -/
def registerLast (w : WatchList) (i : Nat) (a : Action) : WatchList :=
  ⟨w.watchers.alter a fun known => some (enterLast i (known.getD []))⟩

/-- Registering a position enters it for its action and leaves all others alone. -/
theorem watchersOf_registerLast (w : WatchList) (i : Nat) (a k : Action) :
    (w.registerLast i a).watchersOf k =
      if a = k then enterLast i (w.watchersOf k) else w.watchersOf k := by
  unfold registerLast watchersOf
  rw [Std.HashMap.getD_alter, Std.HashMap.getD_eq_getD_getElem?]
  by_cases hak : a = k
  · simp [hak]
  · simp [hak]

/-- Enter a transaction, given with its position, behind those that are entered already. -/
def enterNext (w : WatchList) (e : Transaction × Nat) : WatchList :=
  (e.1.actions.flatMap watched).foldl (registerLast · e.2) w

/-- The watch list of a batch if its transactions are entered from the first to the last. -/
def inOrder (b : Batch) : WatchList := b.zipIdx.foldl enterNext ⟨∅⟩

/-- Transactions entered from a position on stand behind the watchers from before. -/
theorem watchersOf_foldl_enterNext {w : WatchList} {i : Nat} {k : Action}
    (hw : ∀ j ∈ w.watchersOf k, j < i) (b : Batch) :
    ((b.zipIdx i).foldl enterNext w).watchersOf k = w.watchersOf k ++ places i b k := by
  induction b generalizing w i with
  | nil => simp [places]
  | cons tx b ih =>
      have hnext : (w.enterNext (tx, i)).watchersOf k =
          if k ∈ tx.actions.flatMap watched then w.watchersOf k ++ [i] else w.watchersOf k := by
        rw [enterNext, watchersOf_foldl watchersOf_registerLast enterLast_enterLast,
          enterLast_of_lt hw]
      have hbelow : ∀ j ∈ (w.enterNext (tx, i)).watchersOf k, j < i + 1 := by
        intro j hj
        rw [hnext] at hj
        split at hj
        · rcases List.mem_append.1 hj with hj | hj
          · exact Nat.lt_succ_of_lt (hw j hj)
          · exact Nat.lt_succ_of_le (Nat.le_of_eq (List.mem_singleton.1 hj))
        · exact Nat.lt_succ_of_lt (hw j hj)
      rw [List.zipIdx_cons, List.foldl_cons, ih hbelow, hnext, places_cons]
      split
      · rw [List.append_assoc, List.singleton_append]
      · rfl

/-- Filling the lists from front to back gives the same watchers. -/
theorem watchersOf_inOrder (b : Batch) (k : Action) :
    (inOrder b).watchersOf k = (ofBatch b).watchersOf k := by
  have hempty : (⟨∅⟩ : WatchList).watchersOf k = [] := by simp [watchersOf]
  have hnone : ∀ j ∈ (⟨∅⟩ : WatchList).watchersOf k, j < 0 := by simp [hempty]
  rw [inOrder, watchersOf_foldl_enterNext hnone, hempty, List.nil_append, watchersOf_ofBatch]

/-! ## Watchers and scores -/

/-- What is wanted of the watchers of an action in a batch. -/
structure Covers (w : WatchList) (b : Batch) (k : Action) : Prop where
  /-- They stand in the order of the batch, each of them once. -/
  rising : (w.watchersOf k).Pairwise (· < ·)
  /-- They are the transactions with a main action or an authorization near the action. -/
  complete : ∀ i, i ∈ w.watchersOf k ↔
    ∃ tx, b[i]? = some tx ∧ (tx.main.Near k ∨ ∃ a ∈ tx.auth, a.Near k)
  /-- If the action is next in turn and its account advances past it, then all others keep their
  scores, whether the action waits on or not. -/
  keeps : ∀ (st : NonceTable) (pending : Std.HashSet Action) (i : Nat) (tx : Transaction),
    st.get k.sender = k.nonce → k.nonce < Nonce.last → b[i]? = some tx → i ∉ w.watchersOf k →
      tx.score (st.set k.sender (k.nonce + 1)) pending = tx.score st pending ∧
        tx.score (st.set k.sender (k.nonce + 1)) (pending.erase k) = tx.score st pending

/-- A transaction watches an action if its main action or an authorization is near it. -/
theorem watches_iff {tx : Transaction} {k : Action} :
    Watches tx k ↔ tx.main.Near k ∨ ∃ a ∈ tx.auth, a.Near k := by
  unfold Watches
  simp only [mem_watched_iff, Transaction.actions, List.mem_cons, exists_eq_or_imp]

/-- Below the last nonce, an account advances to the next number. -/
theorem advance_eq_set {st : NonceTable} {s : Address} {n : Nonce}
    (hturn : st.get s = n) (hlast : n < Nonce.last) : st.advance s = st.set s (n + 1) := by
  rw [NonceTable.advance, hturn, Nonce.succ, if_neg (UInt64.ne_of_lt hlast)]

/-- The watch list of a batch covers every action. -/
theorem covers_ofBatch (b : Batch) (k : Action) : (ofBatch b).Covers b k where
  rising := by
    rw [watchersOf_ofBatch]
    exact pairwise_places 0 b k
  complete i := by simp only [mem_watchersOf_ofBatch, watches_iff]
  keeps st pending i tx hturn hlast htx hout := by
    have hun : ¬ Watches tx k := fun hw => hout (mem_watchersOf_ofBatch.2 ⟨tx, htx, hw⟩)
    have herase (a : Action) (ha : a ≠ k) : (pending.erase k).contains a = pending.contains a := by
      simp [Std.HashSet.contains_erase, Ne.symm ha]
    rw [← advance_eq_set hturn hlast]
    exact ⟨score_advance_of_unwatched hun hturn hlast fun _ _ => rfl,
      score_advance_of_unwatched hun hturn hlast herase⟩

/-- What covers an action does so by its watchers alone. -/
theorem Covers.congr {w w' : WatchList} {b : Batch} {k : Action} (h : w.Covers b k)
    (hsame : w'.watchersOf k = w.watchersOf k) : w'.Covers b k where
  rising := hsame ▸ h.rising
  complete := hsame ▸ h.complete
  keeps := hsame ▸ h.keeps

/-- From whichever end of a batch its transactions are entered, the watchers of an action are the
transactions that name its account at most one nonce away from it, in the order of the batch and
each of them once, and an advance past the action leaves the scores of all others as they are. -/
theorem watchers_cover_advance (b : Batch) (k : Action) :
    (ofBatch b).Covers b k ∧ (inOrder b).Covers b k :=
  ⟨covers_ofBatch b k, (covers_ofBatch b k).congr (watchersOf_inOrder b k)⟩

/-- An action of an account for which this is the next nonce in turn. -/
def sixth : Action := ⟨.ofNat 20 2, 6⟩

/-- The nonces before the action. -/
def beforeSixth : NonceTable := .ofList [(.ofNat 20 2, 6)]

/-- A transaction that names the account two and three nonces further on. -/
def wellAfterSixth : Transaction :=
  ⟨⟨.ofNat 20 2, 8⟩, [⟨.ofNat 20 1, 1⟩, ⟨.ofNat 20 2, 9⟩]⟩

/-- The first transaction authorizes the action twice with the one before it in between; the last
has the one after it as its main action. -/
def aroundSixth : Batch :=
  [⟨⟨.ofNat 20 1, 0⟩, [sixth, sixth.pred, sixth]⟩, wellAfterSixth, ⟨sixth.succ, []⟩]

/-- An advance past the sixth action, unwatched by the second transaction. -/
theorem watchers_cover_advance_past_sixth :
    beforeSixth.get sixth.sender = sixth.nonce ∧ sixth.nonce < Nonce.last ∧
      aroundSixth[1]? = some wellAfterSixth ∧ 1 ∉ (ofBatch aroundSixth).watchersOf sixth ∧
      wellAfterSixth.score (beforeSixth.set sixth.sender (sixth.nonce + 1))
          (.ofList aroundSixth.mains) =
        wellAfterSixth.score beforeSixth (.ofList aroundSixth.mains) ∧
      wellAfterSixth.score (beforeSixth.set sixth.sender (sixth.nonce + 1))
          ((Std.HashSet.ofList aroundSixth.mains).erase sixth) =
        wellAfterSixth.score beforeSixth (.ofList aroundSixth.mains) := by
  rcases watchers_cover_advance aroundSixth sixth with ⟨hcovers, _⟩
  have hturn : beforeSixth.get sixth.sender = sixth.nonce := by decide
  have hlast : sixth.nonce < Nonce.last := by decide
  have htx : aroundSixth[1]? = some wellAfterSixth := by decide
  have hfar : ¬ (wellAfterSixth.main.Near sixth ∨ ∃ a ∈ wellAfterSixth.auth, a.Near sixth) := by
    decide
  have hout : 1 ∉ (ofBatch aroundSixth).watchersOf sixth := by
    rw [hcovers.complete]
    rintro ⟨tx, htx', hnear⟩
    rw [htx] at htx'
    exact hfar (Option.some.inj htx' ▸ hnear)
  exact ⟨hturn, hlast, htx, hout, hcovers.keeps beforeSixth _ 1 wellAfterSixth hturn hlast htx hout⟩

end WatchList

end BatchOrder
