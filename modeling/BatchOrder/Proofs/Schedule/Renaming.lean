import Mathlib.Logic.Function.Basic
import BatchOrder.Proofs.Cluster
import BatchOrder.Proofs.Schedule.Watching
import BatchOrder.Renaming
import BatchOrder.Schedule.Progress

/-!
# Scheduling does not look at addresses

The scheduler finds transactions by their positions and compares scores, in which no account occurs.
It uses accounts only to look something up: a nonce, a pending action, the watchers of an action.
So if a batch is scheduled again with its accounts renamed, from nonces that correspond for the
accounts of the batch, the two runs have the same heap and the same positions in every state.

With the identity as renaming, this is the frame of the scheduler: nonces of accounts that the batch
does not name have no influence.

Main results:

- Theorem `Mirrors.step?`: one step keeps two runs alike, or both stop.
- Theorem `schedule_rename`: the schedule of the renamed batch is the renamed schedule.
- Theorem `schedule_congr`: only the nonces of the accounts that a batch names matter.
-/

namespace BatchOrder

variable {f : Address → Address}

/-- Different actions stay different if different accounts do. -/
theorem Action.rename_injective (hf : Function.Injective f) :
    Function.Injective (Action.rename f) := by
  intro a k h
  cases a
  cases k
  simp only [Action.rename, Action.mk.injEq] at h
  rw [hf h.1, h.2]

/-! ## Watch lists -/

namespace WatchList

/-- A renamed action makes its transaction watch the renamed actions. -/
theorem watched_rename (a : Action) : watched (a.rename f) = (watched a).map (Action.rename f) :=
  rfl

/-- Watch lists of a batch and of the renamed batch have the same watchers. -/
def Mirrors (f : Address → Address) (w w' : WatchList) : Prop :=
  ∀ k : Action, w'.watchersOf (k.rename f) = w.watchersOf k

/-- Registering a position for an action and for the renamed action keeps the lists alike. -/
theorem Mirrors.register {w w' : WatchList} (hf : Function.Injective f) (h : Mirrors f w w')
    (i : Nat) (a : Action) : Mirrors f (w.register i a) (w'.register i (a.rename f)) := by
  intro k
  rw [watchersOf_register, watchersOf_register, h k]
  simp only [(Action.rename_injective hf).eq_iff]

/-- Registering a position for several actions and for the renamed actions keeps the lists alike. -/
theorem Mirrors.foldl_register {w w' : WatchList} (hf : Function.Injective f)
    (h : Mirrors f w w') (i : Nat) (as : List Action) :
    Mirrors f (as.foldl (fun w a => w.register i a) w)
      ((as.map (Action.rename f)).foldl (fun w a => w.register i a) w') := by
  induction as generalizing w w' with
  | nil => exact h
  | cons a as ih => exact ih (h.register hf i a)

/-- The lists of a batch and of the renamed batch are alike. -/
theorem mirrors_ofBatchFrom (hf : Function.Injective f) (i : Nat) (b : Batch) :
    Mirrors f (ofBatchFrom i b) (ofBatchFrom i (b.rename f)) := by
  induction b generalizing i with
  | nil => exact fun _ => by simp [ofBatchFrom, watchersOf, Batch.rename]
  | cons tx b ih =>
      have hwatched : (tx.rename f).actions.flatMap watched =
          (tx.actions.flatMap watched).map (Action.rename f) := by
        rw [Transaction.actions_rename, List.flatMap_map, List.map_flatMap]
        simp only [watched_rename]
      change Mirrors f _ (((tx.rename f).actions.flatMap watched).foldl _ _)
      rw [hwatched]
      exact (ih (i + 1)).foldl_register hf i _

/-- Erasing an action and the renamed action keeps the lists alike. -/
theorem Mirrors.erase {w w' : WatchList} (hf : Function.Injective f) (h : Mirrors f w w')
    (a : Action) : Mirrors f (w.erase a) (w'.erase (a.rename f)) := by
  intro k
  rw [watchersOf_erase, watchersOf_erase, h k]
  simp only [(Action.rename_injective hf).eq_iff]

end WatchList

/-! ## Scores -/

/-- A renamed transaction has the same score if the nonces of its accounts and the pending actions
correspond. -/
theorem score_rename {tx : Transaction} {st st' : NonceTable}
    {pending pending' : Std.HashSet Action}
    (hnonces : ∀ a ∈ tx.actions, st'.get (f a.sender) = st.get a.sender)
    (hpending : ∀ k : Action, pending'.contains (k.rename f) = pending.contains k) :
    (tx.rename f).score st' pending' = tx.score st pending := by
  have hauth (a : Action) (ha : a ∈ tx.auth) : st'.get (f a.sender) = st.get a.sender :=
    hnonces a (List.mem_cons_of_mem _ ha)
  have hmain : st'.get (f tx.main.sender) = st.get tx.main.sender :=
    hnonces tx.main List.mem_cons_self
  simp only [Transaction.score, Transaction.main_rename, Transaction.auth_rename,
    Action.sender_rename, Action.nonce_rename, List.countP_map, List.length_map, hmain]
  congr 1
  · apply List.countP_congr
    intro a ha
    simp only [Function.comp_apply, Action.sender_rename, Action.nonce_rename, hauth a ha,
      hpending]
  · apply List.countP_congr
    intro a ha
    simp only [Function.comp_apply, Action.sender_rename, Action.nonce_rename, hauth a ha]

/-! ## Two runs of the scheduler -/

namespace Progress

variable {b : Batch} {p q : Progress}

/-- States of the scheduler on a batch and on the renamed batch that differ in the accounts only.
Of the nonces, those of the accounts that the batch names count. -/
structure Mirrors (f : Address → Address) (b : Batch) (p q : Progress) : Prop where
  waiting : q.waiting = p.waiting
  watch : WatchList.Mirrors f p.watch q.watch
  pending : ∀ k : Action, q.pending.contains (k.rename f) = p.pending.contains k
  nonces : ∀ s ∈ b.named, q.nonces.get (f s) = p.nonces.get s
  scheduled : q.scheduled = p.scheduled

/-- A renamed transaction of a batch has the same score if the nonces of the accounts that the batch
names and the pending actions correspond. -/
theorem score_rename_of_mem {st st' : NonceTable} {pending pending' : Std.HashSet Action}
    (hnonces : ∀ s ∈ b.named, st'.get (f s) = st.get s)
    (hpending : ∀ k : Action, pending'.contains (k.rename f) = pending.contains k)
    {tx : Transaction} (htx : tx ∈ b) :
    (tx.rename f).score st' pending' = tx.score st pending :=
  score_rename (fun _ ha => hnonces _ (Batch.mem_named_of_mem_actions htx ha)) hpending

/-- Scoring anew does the same to both heaps. -/
theorem rescoreAt_rename {st st' : NonceTable} {pending pending' : Std.HashSet Action}
    (hnonces : ∀ s ∈ b.named, st'.get (f s) = st.get s)
    (hpending : ∀ k : Action, pending'.contains (k.rename f) = pending.contains k) :
    rescoreAt (b.rename f).toArray st' pending' = rescoreAt b.toArray st pending := by
  funext heap i
  unfold rescoreAt
  rw [List.getElem?_toArray, List.getElem?_toArray, Batch.getElem?_rename]
  cases htx : b[i]? with
  | none => rfl
  | some tx =>
      have hscore := score_rename_of_mem hnonces hpending (List.mem_of_getElem? htx)
      simp only [Option.map_some, hscore]

/-- At the start both runs are alike. -/
theorem mirrors_start (hf : Function.Injective f) {st st' : NonceTable}
    (hnonces : ∀ s ∈ b.named, st'.get (f s) = st.get s) :
    Mirrors f b (start b st) (start (b.rename f) st') := by
  have hpending (k : Action) : (Std.HashSet.ofList (b.rename f).mains).contains (k.rename f) =
      (Std.HashSet.ofList b.mains).contains k := by
    rw [Std.HashSet.contains_ofList, Std.HashSet.contains_ofList, Batch.mains_rename,
      Bool.eq_iff_iff, List.contains_iff_mem, List.contains_iff_mem,
      List.mem_map_of_injective (Action.rename_injective hf)]
  refine ⟨?_, WatchList.mirrors_ofBatchFrom hf 0 b, hpending, hnonces, rfl⟩
  unfold start Batch.rename
  dsimp only
  rw [List.zipIdx_map, List.foldl_map]
  apply List.foldl_ext
  intro heap e he
  have htx : e.1 ∈ b := List.mem_of_getElem? (List.mem_zipIdx_iff_getElem?.1 he)
  exact congrArg (fun x => (heap.add e.2 x).2) (score_rename_of_mem hnonces hpending htx)

/-! ### One step -/

/-- Consuming an action and the renamed action keeps two runs alike. -/
theorem Mirrors.consume (h : Mirrors f b p q) (hf : Function.Injective f) {k : Action}
    (hk : k.sender ∈ b.named) :
    Mirrors f b (p.consume b.toArray k) (q.consume (b.rename f).toArray (k.rename f)) := by
  have hnonces : ∀ s ∈ b.named,
      (q.nonces.advance (f k.sender)).get (f s) = (p.nonces.advance k.sender).get s := by
    intro s hs
    rw [NonceTable.get_advance, NonceTable.get_advance, h.nonces s hs, h.nonces k.sender hk]
    simp only [hf.eq_iff]
  refine ⟨?_, h.watch, h.pending, hnonces, h.scheduled⟩
  unfold Progress.consume
  dsimp only
  rw [Action.sender_rename, rescoreAt_rename hnonces h.pending, h.watch k, h.waiting]

/-- Consuming an authorization and the renamed one, which is in turn in both runs or in neither,
keeps them alike. -/
theorem Mirrors.authorize (h : Mirrors f b p q) (hf : Function.Injective f) {a : Action}
    (ha : a.sender ∈ b.named) :
    Mirrors f b (p.authorize b.toArray a) (q.authorize (b.rename f).toArray (a.rename f)) := by
  unfold Progress.authorize
  rw [Action.nonce_rename, Action.sender_rename, h.nonces a.sender ha]
  split
  · have hconsume := h.consume hf ha
    exact { hconsume with watch := hconsume.watch.erase hf a }
  · exact h

/-- Consuming the authorizations of a transaction and the renamed ones keeps two runs alike. -/
theorem Mirrors.foldl_authorize (h : Mirrors f b p q) (hf : Function.Injective f)
    {as : List Action} (has : ∀ a ∈ as, a.sender ∈ b.named) :
    Mirrors f b (as.foldl (Progress.authorize b.toArray) p)
      ((as.map (Action.rename f)).foldl (Progress.authorize (b.rename f).toArray) q) := by
  induction as generalizing p q with
  | nil => exact h
  | cons a as ih =>
      apply ih (h.authorize hf (has a List.mem_cons_self))
      intro a' ha'
      exact has a' (List.mem_cons_of_mem _ ha')

/-- Running a transaction and the renamed transaction keeps two runs alike. -/
theorem Mirrors.run (h : Mirrors f b p q) (hf : Function.Injective f) {tx : Transaction}
    (htx : tx ∈ b) (i : Nat) :
    Mirrors f b (p.run b.toArray i tx) (q.run (b.rename f).toArray i (tx.rename f)) := by
  have htaken : Mirrors f b
      { p with pending := p.pending.erase tx.main, scheduled := p.scheduled.push i }
      { q with
        pending := q.pending.erase (tx.main.rename f)
        scheduled := q.scheduled.push i } := by
    refine ⟨h.waiting, h.watch, fun k => ?_, h.nonces, by rw [h.scheduled]⟩
    rw [Std.HashSet.contains_erase, Std.HashSet.contains_erase, h.pending k]
    simp only [beq_eq_decide, (Action.rename_injective hf).eq_iff]
  apply (htaken.consume hf (mains_mem_named htx)).foldl_authorize hf
  intro a ha
  exact Batch.mem_named_of_mem_actions htx (List.mem_cons_of_mem _ ha)

/-- Both runs stop, or both take the transaction at the same position. -/
theorem Mirrors.step? (h : Mirrors f b p q) (hf : Function.Injective f) :
    Option.Rel (Mirrors f b) (p.step? b.toArray) (q.step? (b.rename f).toArray) := by
  unfold Progress.step? Progress.next?
  rw [h.waiting]
  cases p.waiting.pop? with
  | none => exact .none
  | some popped =>
      rcases popped with ⟨⟨i, standing⟩, rest⟩
      dsimp only
      by_cases hrunnable : standing.runnable
      · rw [if_pos hrunnable, if_pos hrunnable, List.getElem?_toArray, List.getElem?_toArray,
          Batch.getElem?_rename]
        cases htx : b[i]? with
        | none => exact .none
        | some tx =>
            have hpopped : Mirrors f b { p with waiting := rest } { q with waiting := rest } :=
              { h with waiting := rfl }
            exact .some (hpopped.run hf (List.mem_of_getElem? htx) i)
      · rw [if_neg hrunnable, if_neg hrunnable]
        exact .none

/-! ### Whole runs -/

/-- Both runs end alike. -/
theorem Mirrors.finish (h : Mirrors f b p q) (hf : Function.Injective f) :
    Mirrors f b (p.finish b.toArray) (q.finish (b.rename f).toArray) := by
  fun_induction Progress.finish b.toArray p generalizing q with
  | case1 p hnone =>
      have hstep := h.step? hf
      rw [hnone] at hstep
      cases hq : q.step? (b.rename f).toArray with
      | none =>
          rw [finish_of_step?_eq_none hq]
          exact h
      | some q' =>
          rw [hq] at hstep
          cases hstep
  | case2 p p' hsome ih =>
      have hstep := h.step? hf
      rw [hsome] at hstep
      cases hq : q.step? (b.rename f).toArray with
      | none =>
          rw [hq] at hstep
          cases hstep
      | some q' =>
          rw [hq] at hstep
          cases hstep with
          | some hnext =>
              rw [finish_of_step?_eq_some hq]
              exact ih hnext

end Progress

/-- The schedule of the renamed batch, from nonces that correspond, is the renamed schedule. -/
theorem schedule_rename (hf : Function.Injective f) {b : Batch} {st st' : NonceTable}
    (hnonces : ∀ s ∈ b.named, st'.get (f s) = st.get s) :
    ((b.rename f).schedule st').order = (b.schedule st).order.rename f ∧
      ∀ s ∈ b.named,
        ((b.rename f).schedule st').nonces.get (f s) = (b.schedule st).nonces.get s := by
  have hlast := (Progress.mirrors_start hf hnonces).finish hf
  refine ⟨?_, hlast.nonces⟩
  unfold Batch.schedule Progress.order
  dsimp only
  rw [hlast.scheduled]
  change _ = List.map (Transaction.rename f) _
  rw [List.map_filterMap]
  apply List.filterMap_congr
  intro i _
  rw [List.getElem?_toArray, List.getElem?_toArray]
  exact Batch.getElem?_rename f b i

/-- Renaming every account to itself changes nothing. -/
@[simp]
theorem Batch.rename_id (b : Batch) : b.rename id = b := by
  have haction : Action.rename id = id := rfl
  have htx (tx : Transaction) : tx.rename id = tx := by simp [Transaction.rename, haction]
  exact (List.map_congr_left fun tx _ => htx tx).trans (List.map_id b)

/-- Nonces of accounts that a batch does not name make no difference to its schedule. -/
theorem schedule_congr {b : Batch} {st st' : NonceTable} (h : NonceTable.AgreesOn b.named st st') :
    (b.schedule st').order = (b.schedule st).order := by
  have hrename : ((b.rename id).schedule st').order = (b.schedule st).order.rename id :=
    (schedule_rename Function.injective_id fun s hs => (h s hs).symm).1
  rwa [Batch.rename_id, Batch.rename_id] at hrename

end BatchOrder
