import BatchOrder.Proofs.KeyedHeap.Order
import BatchOrder.Proofs.Schedule.Watching
import BatchOrder.Schedule.Progress

/-!
# Rescoring keeps every score fresh

The heap holds the scores that the waiting transactions have under the nonces and the pending main
actions of the moment.  Consuming an action spoils only the scores of its watchers, and these are
taken anew at once; so between any two consumed actions every stored score is the score taken from
scratch.

Main results:

- Theorem `Scored.rescore`: rescoring the watchers of an action makes all scores fresh again.
- Theorem `spends_consume`: consuming an action keeps all scores fresh.
- Theorem `Fresh.run`: so does running a transaction that is next in turn.
-/

namespace BatchOrder

namespace Progress

/-- A sound heap that holds, for every position in it, the score under the given nonces and pending
main actions. -/
structure Scored (b : Batch) (st : NonceTable) (pending : Std.HashSet Action)
    (heap : KeyedHeap Nat Standing Standing.compare) : Prop where
  indexed : heap.Indexed
  ordered : heap.Ordered
  score : ∀ i x, heap.value? i = some x → ∃ tx, b[i]? = some tx ∧ x = tx.score st pending

/-- A watch list that still knows every watcher of every action that no account has passed. -/
def Attentive (b : Batch) (st : NonceTable) (watch : WatchList) : Prop :=
  ∀ k, st.get k.sender ≤ k.nonce → watch.watchersOf k = (WatchList.ofBatch b).watchersOf k

/-- Scores and watch list are as they should be between any two consumed actions. -/
structure Fresh (b : Batch) (p : Progress) : Prop where
  scored : Scored b p.nonces p.pending p.waiting
  attentive : Attentive b p.nonces p.watch

variable {b : Batch}

/-! ## Rescoring -/

/-- Rescoring a position replaces its score, if it waits, and keeps the other scores. -/
theorem value?_rescoreAt (b : Batch) (st : NonceTable) (pending : Std.HashSet Action)
    {heap : KeyedHeap Nat Standing Standing.compare} (hi : heap.Indexed) (ho : heap.Ordered)
    (j : Nat) :
    (rescoreAt b.toArray st pending heap j).Indexed ∧
      (rescoreAt b.toArray st pending heap j).Ordered ∧
      ∀ i, (rescoreAt b.toArray st pending heap j).value? i = (heap.value? i).map fun x =>
        if i = j then (b[i]?.map fun tx => tx.score st pending).getD x else x := by
  unfold rescoreAt
  cases htx : b[j]? with
  | none =>
      simp only [List.getElem?_toArray, htx]
      refine ⟨hi, ho, fun i => ?_⟩
      have hsame (x : Standing) :
          (if i = j then (b[i]?.map fun tx => tx.score st pending).getD x else x) = x := by
        split
        · next hij => simp [hij, htx]
        · rfl
      simp [hsame]
  | some tx =>
      simp only [List.getElem?_toArray, htx]
      rcases hi.update j (tx.score st pending) with ⟨hindexed, hvalue⟩
      refine ⟨hindexed, ho.update j _, fun i => ?_⟩
      rw [hvalue]
      by_cases hij : j = i
      · subst hij
        cases heap.value? j <;> simp [htx]
      · simp [hij, Ne.symm hij]

/-- Scoring some positions anew keeps the heap sound and gives those of them that wait the new
score. -/
theorem value?_foldl_rescoreAt (b : Batch) (st : NonceTable) (pending : Std.HashSet Action)
    {heap : KeyedHeap Nat Standing Standing.compare} (hi : heap.Indexed) (ho : heap.Ordered)
    (is : List Nat) :
    (is.foldl (rescoreAt b.toArray st pending) heap).Indexed ∧
      (is.foldl (rescoreAt b.toArray st pending) heap).Ordered ∧
      ∀ i, (is.foldl (rescoreAt b.toArray st pending) heap).value? i = (heap.value? i).map fun x =>
        if i ∈ is then (b[i]?.map fun tx => tx.score st pending).getD x else x := by
  induction is generalizing heap with
  | nil => exact ⟨hi, ho, fun i => by simp⟩
  | cons j is ih =>
      rcases value?_rescoreAt b st pending hi ho j with ⟨hi', ho', hvalue⟩
      rcases ih hi' ho' with ⟨hi'', ho'', hvalue'⟩
      refine ⟨hi'', ho'', fun i => ?_⟩
      rw [List.foldl_cons, hvalue', hvalue, Option.map_map]
      congr 1
      funext x
      by_cases hij : i = j
      · cases htx : b[i]? <;> simp [hij]
      · simp [hij]

/-- Rescoring all watchers of an action makes the scores fresh after its account has advanced. -/
theorem Scored.rescore {st : NonceTable} {pending pending' : Std.HashSet Action}
    {heap : KeyedHeap Nat Standing Standing.compare} (hs : Scored b st pending heap) {k : Action}
    (hturn : st.get k.sender = k.nonce) (hlast : k.nonce < Nonce.last)
    (hpending : ∀ a, a ≠ k → pending'.contains a = pending.contains a) :
    Scored b (st.advance k.sender) pending'
      (((WatchList.ofBatch b).watchersOf k).foldl
        (rescoreAt b.toArray (st.advance k.sender) pending') heap) ∧
    ∀ i, ((((WatchList.ofBatch b).watchersOf k).foldl
      (rescoreAt b.toArray (st.advance k.sender) pending') heap).value? i).isSome =
        (heap.value? i).isSome := by
  obtain ⟨hi, ho, hvalue⟩ := value?_foldl_rescoreAt b (st.advance k.sender) pending' hs.indexed
    hs.ordered ((WatchList.ofBatch b).watchersOf k)
  refine ⟨⟨hi, ho, ?_⟩, fun i => by rw [hvalue, Option.isSome_map]⟩
  intro i x hx
  rw [hvalue] at hx
  rcases Option.map_eq_some_iff.1 hx with ⟨y, hy, hyx⟩
  rcases hs.score i y hy with ⟨tx, htx, hscore⟩
  refine ⟨tx, htx, ?_⟩
  by_cases hmem : i ∈ (WatchList.ofBatch b).watchersOf k
  · rw [← hyx, if_pos hmem, htx]
    rfl
  · have hun : ¬ WatchList.Watches tx k :=
      fun hw => hmem (WatchList.mem_watchersOf_ofBatch.2 ⟨tx, htx, hw⟩)
    rw [← hyx, if_neg hmem, hscore, score_advance_of_unwatched hun hturn hlast hpending]

/-! ## Consuming actions -/

/-- Consuming an action changes the nonces and the scores, and nothing else. -/
theorem consume_eq (txs : Array Transaction) (p : Progress) (k : Action) :
    p.consume txs k = { p with
      nonces := p.nonces.advance k.sender
      waiting := (p.watch.watchersOf k).foldl
        (rescoreAt txs (p.nonces.advance k.sender) p.pending) p.waiting } := rfl

/-- A watch list that knows all it has to still does after an advance, which leaves fewer actions to
watch. -/
theorem Attentive.advance {st : NonceTable} {watch : WatchList} (ha : Attentive b st watch)
    (s : Address) : Attentive b (st.advance s) watch := by
  intro k hk
  apply ha
  have hle : st.get k.sender ≤ (st.advance s).get k.sender := by
    rw [NonceTable.get_advance]
    split
    · next hs => exact hs ▸ Nonce.le_succ _
    · exact UInt64.le_refl _
  exact UInt64.le_trans hle hk

/-- The scores of those that wait on stay fresh when one leaves the heap. -/
theorem Fresh.pop {p : Progress} (hf : Fresh b p) {e : Nat × Standing}
    {rest : KeyedHeap Nat Standing Standing.compare} (hpop : p.waiting.pop? = some (e, rest)) :
    Fresh b { p with waiting := rest } := by
  rcases hf.scored.indexed.pop? hpop with ⟨hindexed, _, hrest⟩
  refine ⟨⟨hindexed, hf.scored.ordered.pop? hpop, ?_⟩, hf.attentive⟩
  intro j x hx
  rw [hrest] at hx
  split at hx
  · cases hx
  · exact hf.scored.score j x hx

/-- One state comes from another by spending actions: all scores are fresh, and nothing else has
changed than the nonces. -/
structure Spends (b : Batch) (as : List Action) (p q : Progress) : Prop where
  fresh : Fresh b q
  nonces : q.nonces = as.foldl NonceTable.spend p.nonces
  waits : ∀ i, (q.waiting.value? i).isSome = (p.waiting.value? i).isSome
  pending : q.pending = p.pending
  scheduled : q.scheduled = p.scheduled

variable {p q r : Progress}

theorem Spends.nil (hf : Fresh b p) : Spends b [] p p := ⟨hf, rfl, fun _ => rfl, rfl, rfl⟩

/-- What is spent in two goes is spent in one. -/
theorem Spends.append {as bs : List Action} (h : Spends b as p q) (h' : Spends b bs q r) :
    Spends b (as ++ bs) p r where
  fresh := h'.fresh
  nonces := by rw [h'.nonces, h.nonces, List.foldl_append]
  waits i := (h'.waits i).trans (h.waits i)
  pending := h'.pending.trans h.pending
  scheduled := h'.scheduled.trans h.scheduled

/-- Consuming an action that is next in turn makes all scores fresh, if before it they were fresh
for pending actions that differ from the present ones by that action at most. -/
theorem spends_consume {pending : Std.HashSet Action} {k : Action}
    (hs : Scored b p.nonces pending p.waiting) (ha : Attentive b p.nonces p.watch)
    (hturn : k.nonce = p.nonces.get k.sender) (hlast : k.nonce < Nonce.last)
    (hpending : ∀ a, a ≠ k → p.pending.contains a = pending.contains a) :
    Spends b [k] p (p.consume b.toArray k) := by
  have hwatchers := ha k (UInt64.le_of_eq hturn.symm)
  have hspend : p.nonces.spend k = p.nonces.advance k.sender := if_pos hturn
  rcases hs.rescore hturn.symm hlast hpending with ⟨hscored, hwaits⟩
  rw [consume_eq, hwatchers]
  exact ⟨⟨hscored, ha.advance k.sender⟩, hspend.symm, hwaits, rfl, rfl⟩

/-- Nobody has to watch an action that its account has passed. -/
theorem Attentive.erase {st : NonceTable} {watch : WatchList} (ha : Attentive b st watch)
    {a : Action} (hpassed : a.nonce < st.get a.sender) : Attentive b st (watch.erase a) := by
  intro k hk
  have hne : a ≠ k := by
    rintro rfl
    exact UInt64.not_le.2 hpassed hk
  rw [WatchList.watchersOf_erase, if_neg hne]
  exact ha k hk

/-- Consuming an authorization, if it is in turn, spends it and keeps all scores fresh. -/
theorem Fresh.authorize (hf : Fresh b p) {a : Action} (hlast : a.nonce < Nonce.last) :
    Spends b [a] p (p.authorize b.toArray a) := by
  unfold Progress.authorize
  by_cases hturn : a.nonce = p.nonces.get a.sender
  · rw [if_pos hturn]
    have hspends := spends_consume hf.scored hf.attentive hturn hlast fun _ _ => rfl
    have hpassed : a.nonce < (p.consume b.toArray a).nonces.get a.sender := by
      rw [hspends.nonces, List.foldl_cons, List.foldl_nil, NonceTable.get_spend,
        if_pos ⟨rfl, hturn⟩, ← hturn]
      exact Nonce.lt_succ hlast
    exact { hspends with
      fresh := ⟨hspends.fresh.scored, hspends.fresh.attentive.erase hpassed⟩ }
  · rw [if_neg hturn]
    have hspend : p.nonces.spend a = p.nonces := if_neg hturn
    exact ⟨hf, hspend.symm, fun _ => rfl, rfl, rfl⟩

/-- Consuming the authorizations of a transaction in order spends them and keeps all scores
fresh. -/
theorem Fresh.foldl_authorize (hf : Fresh b p) {as : List Action}
    (hlast : ∀ a ∈ as, a.nonce < Nonce.last) :
    Spends b as p (as.foldl (Progress.authorize b.toArray) p) := by
  induction as generalizing p with
  | nil => exact .nil hf
  | cons a as ih =>
      have hfirst := hf.authorize (hlast a List.mem_cons_self)
      have hrest := ih hfirst.fresh fun a' ha => hlast a' (List.mem_cons_of_mem _ ha)
      exact hfirst.append hrest

/-- Running a transaction that is next in turn and has left the heap is taking its main action from
those that are pending, noting its position, and spending its actions. -/
theorem Fresh.run {i : Nat} {tx : Transaction} (hf : Fresh b p)
    (hturn : tx.main.nonce = p.nonces.get tx.main.sender)
    (hlast : ∀ a ∈ tx.actions, a.nonce < Nonce.last) :
    Spends b tx.actions
      { p with pending := p.pending.erase tx.main, scheduled := p.scheduled.push i }
      (p.run b.toArray i tx) := by
  have herase (a : Action) (ha : a ≠ tx.main) :
      (p.pending.erase tx.main).contains a = p.pending.contains a := by
    simp [Std.HashSet.contains_erase, Ne.symm ha]
  have hmain := spends_consume
    (p := { p with pending := p.pending.erase tx.main, scheduled := p.scheduled.push i })
    hf.scored hf.attentive hturn (hlast tx.main List.mem_cons_self) herase
  have hauth := hmain.fresh.foldl_authorize fun a ha => hlast a (List.mem_cons_of_mem _ ha)
  exact hmain.append hauth

end Progress

end BatchOrder
