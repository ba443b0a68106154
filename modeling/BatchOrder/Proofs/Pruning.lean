import BatchOrder.Proofs.KeepFirst
import BatchOrder.Proofs.Replay
import BatchOrder.Pruning

/-!
# What pruning keeps and what it drops

Every action that is kept stands in the run of its account: at its present nonce or above, and below
the end of the run.  So no execution of kept transactions takes an account beyond the end of its
run, and a main action that was dropped is never next in turn.

Main results:

- Theorem `reaches_iff_forall`: which actions are reached.
- Theorem `reaches_congr`: what decides whether an action is reached.
- Theorem `keeping_congr`: what decides which actions are kept.
- Theorem `reaches_of_mem_prune`: the actions that are kept.
- Theorem `main_lt_of_mem_auth_prune`: the authorizations of the own account that are kept.
- Theorem `get_le_of_replay?_prune`: the end of a run is never passed.
- Theorem `main_mem_prune`: the main actions that are kept.
- Theorem `get_ne_of_not_reaches`: a main action that is dropped cannot run.
-/

namespace BatchOrder

/-! ## Runs -/

/-- A run ends at its start or later, and a batch names the end of a run only if there is no later
nonce. -/
theorem endOfRun_spec (named : Std.HashSet Action) (s : Address) (n : Nonce) :
    n ≤ endOfRun named s n ∧
      (⟨s, endOfRun named s n⟩ ∈ named → endOfRun named s n = Nonce.last) := by
  fun_induction endOfRun named s n with
  | case1 n hnext ih =>
      have hlt : n < Nonce.last := UInt64.lt_of_le_of_ne (Nonce.toNat_le_last n) hnext.2
      have hsucc : n + 1 = Nonce.succ n := by
        unfold Nonce.succ
        rw [if_neg hnext.2]
      have hle : n ≤ n + 1 := hsucc ▸ Nonce.le_succ n
      exact ⟨UInt64.le_trans hle ih.1, ih.2⟩
  | case2 n hstop =>
      refine ⟨UInt64.le_refl n, fun hnamed => ?_⟩
      exact Decidable.byContradiction fun hne => hstop ⟨hnamed, hne⟩

/-- A batch names every action of a run. -/
theorem mem_of_lt_endOfRun {named : Std.HashSet Action} {s : Address} {n k : Nonce} (hn : n ≤ k)
    (hk : k < endOfRun named s n) : ⟨s, k⟩ ∈ named := by
  fun_induction endOfRun named s n with
  | case1 n hnext ih =>
      by_cases hkn : k = n
      · rw [hkn]
        exact hnext.1
      · have hlt : n < k := UInt64.lt_of_le_of_ne hn (Ne.symm hkn)
        have hsucc : Nonce.succ n = n + 1 := if_neg hnext.2
        exact ih (hsucc ▸ Nonce.succ_le_of_lt hlt) hk
  | case2 n _ => exact absurd hk (UInt64.not_lt.2 hn)

/-- A nonce stands in the run if the batch names it and all before it, and a later one exists.  If
the run ended at the nonce or before it, the batch would name the end. -/
theorem lt_endOfRun_iff {named : Std.HashSet Action} {s : Address} {n m : Nonce} :
    m < endOfRun named s n ↔ m < Nonce.last ∧ ∀ k, n ≤ k → k ≤ m → ⟨s, k⟩ ∈ named := by
  rcases endOfRun_spec named s n with ⟨hle, hend⟩
  constructor
  · intro hlt
    refine ⟨UInt64.lt_of_lt_of_le hlt (Nonce.toNat_le_last _), fun k hnk hkm => ?_⟩
    exact mem_of_lt_endOfRun hnk (UInt64.lt_of_le_of_lt hkm hlt)
  · rintro ⟨hlast, hnamed⟩
    apply UInt64.not_le.1
    intro hstop
    rw [hend (hnamed _ hle hstop)] at hstop
    exact UInt64.not_lt.2 hstop hlast

variable {b : Batch} {st u : NonceTable}

/-- The ends of the runs are entered for the accounts that are known. -/
theorem find?_runEnds (b : Batch) (st : NonceTable) (s : Address) :
    (b.runEnds st).find? s = (st.find? s).map (endOfRun (.ofList b.actions) s) := by
  unfold Batch.runEnds NonceTable.find?
  exact Std.ExtTreeMap.getElem?_map

/-- No run ends before it begins. -/
theorem get_le_get_runEnds (b : Batch) (st : NonceTable) (s : Address) :
    st.get s ≤ (b.runEnds st).get s := by
  unfold NonceTable.get
  rw [find?_runEnds]
  cases st.find? s with
  | none => exact UInt64.le_refl _
  | some n => exact (endOfRun_spec _ s n).1

/-- An action at the end of the run of a known account has no next one. -/
theorem get_runEnds_eq_last {a : Action} (ha : a ∈ b.actions)
    (hknown : (st.find? a.sender).isSome) (hend : a.nonce = (b.runEnds st).get a.sender) :
    a.nonce = Nonce.last := by
  rcases Option.isSome_iff_exists.1 hknown with ⟨n, hn⟩
  have hstop : (b.runEnds st).get a.sender = endOfRun (.ofList b.actions) a.sender n := by
    unfold NonceTable.get
    rw [find?_runEnds, hn]
    rfl
  rw [hstop] at hend
  rw [hend]
  refine (endOfRun_spec _ a.sender n).2 ?_
  rw [← hend, Std.HashSet.mem_ofList]
  exact List.contains_iff_mem.2 ha

/-- An action is reached if it stands between the beginning and the end of a run. -/
theorem reaches_iff {a : Action} : reaches st (b.runEnds st) a ↔
    st.get a.sender ≤ a.nonce ∧ a.nonce < (b.runEnds st).get a.sender := by
  unfold reaches
  have hget : (b.runEnds st).get a.sender = ((b.runEnds st).find? a.sender).getD 0 := rfl
  rw [hget]
  cases (b.runEnds st).find? a.sender with
  | none => simp
  | some stop => simp

/-- An action of the batch is reached if it is neither passed nor beyond the end of its run: the run
stops at a nonce that the batch names only if there is no later one. -/
theorem reaches_of_le_of_le {a : Action} (ha : a ∈ b.actions)
    (hknown : (st.find? a.sender).isSome) (hlast : a.nonce < Nonce.last)
    (hle : st.get a.sender ≤ a.nonce) (hstop : a.nonce ≤ (b.runEnds st).get a.sender) :
    reaches st (b.runEnds st) a := by
  refine reaches_iff.2 ⟨hle, UInt64.not_le.1 fun hend => ?_⟩
  rw [get_runEnds_eq_last ha hknown (UInt64.le_antisymm hstop hend)] at hlast
  exact UInt64.lt_irrefl _ hlast

/-- An action is reached if its account is known, the batch names the account with every nonce from
its present one to that of the action, and a later nonce exists. -/
theorem reaches_iff_forall {a : Action} : reaches st (b.runEnds st) a ↔
    (st.find? a.sender).isSome ∧ st.get a.sender ≤ a.nonce ∧ a.nonce < Nonce.last ∧
      ∀ k, st.get a.sender ≤ k → k ≤ a.nonce → ⟨a.sender, k⟩ ∈ b.actions := by
  have hnamed (k : Nonce) : ⟨a.sender, k⟩ ∈ Std.HashSet.ofList b.actions ↔
      ⟨a.sender, k⟩ ∈ b.actions := by
    rw [Std.HashSet.mem_ofList, List.contains_iff_mem]
  rw [reaches_iff]
  unfold NonceTable.get
  rw [find?_runEnds]
  cases st.find? a.sender with
  | none => simp
  | some n =>
      simp only [Option.map_some, Option.getD_some, Option.isSome_some, true_and, lt_endOfRun_iff,
        hnamed]

/-- The end of a run depends on which actions of its account are named. -/
theorem endOfRun_congr {named named' : Std.HashSet Action} {s s' : Address}
    (hnamed : ∀ n, ⟨s', n⟩ ∈ named' ↔ ⟨s, n⟩ ∈ named) (n : Nonce) :
    endOfRun named' s' n = endOfRun named s n := by
  fun_induction endOfRun named s n with
  | case1 n hnext ih =>
      rw [endOfRun, if_pos ⟨(hnamed n).2 hnext.1, hnext.2⟩]
      exact ih
  | case2 n hstop =>
      rw [endOfRun, if_neg]
      intro hnext
      exact hstop ⟨(hnamed n).1 hnext.1, hnext.2⟩

/-- Whether an action is reached depends only on the nonces with which the batch names its account
and on the entry of the account. -/
theorem reaches_congr {b' : Batch} {st' : NonceTable} {a a' : Action} (hnonce : a'.nonce = a.nonce)
    (hfind : st'.find? a'.sender = st.find? a.sender)
    (hnamed : ∀ n, ⟨a'.sender, n⟩ ∈ b'.actions ↔ ⟨a.sender, n⟩ ∈ b.actions) :
    reaches st' (b'.runEnds st') a' = reaches st (b.runEnds st) a := by
  have hget : st'.get a'.sender = st.get a.sender := by
    unfold NonceTable.get
    rw [hfind]
  have hend (n : Nonce) : endOfRun (.ofList b'.actions) a'.sender n =
      endOfRun (.ofList b.actions) a.sender n := by
    apply endOfRun_congr
    intro m
    rw [Std.HashSet.mem_ofList, Std.HashSet.mem_ofList, List.contains_iff_mem,
      List.contains_iff_mem]
    exact hnamed m
  have hends : (b'.runEnds st').find? a'.sender = (b.runEnds st).find? a.sender := by
    rw [find?_runEnds, find?_runEnds, hfind]
    exact congrArg (Option.map · (st.find? a.sender)) (funext hend)
  unfold reaches
  rw [hends, hget, hnonce]

/-- The transactions whose main action satisfies a condition, with the authorizations that do. -/
def Batch.keeping (b : Batch) (r : Action → Bool) : Batch :=
  (b.filter fun tx => r tx.main).map fun tx => { tx with auth := tx.auth.filter r }

/-- What is kept depends on what the condition says of the actions of the batch. -/
theorem keeping_congr {r r' : Action → Bool} (h : ∀ a ∈ b.actions, r' a = r a) :
    b.keeping r' = b.keeping r := by
  have hactions (tx : Transaction) (htx : tx ∈ b) (a : Action) (ha : a ∈ tx.actions) :
      r' a = r a := h a (Batch.actions_subset_of_mem htx ha)
  unfold Batch.keeping
  rw [List.filter_congr fun tx htx => hactions tx htx tx.main List.mem_cons_self]
  apply List.map_congr_left
  intro tx htx
  have hmem := (List.mem_filter.1 htx).1
  rw [List.filter_congr fun a ha => hactions tx hmem a (List.mem_cons_of_mem _ ha)]

/-- Nothing is dropped from a batch whose actions all stand in the runs of their accounts. -/
theorem reachable_eq_self (h : ∀ a ∈ b.actions, reaches st (b.runEnds st) a) :
    b.reachable st = b := by
  have hall : b.reachable st = b.keeping fun _ => true := keeping_congr h
  have hself (tx : Transaction) : { tx with auth := tx.auth.filter fun _ => true } = tx := by
    rw [List.filter_eq_self.2 fun _ _ => rfl]
  rw [hall, Batch.keeping, List.filter_eq_self.2 fun _ _ => rfl,
    List.map_congr_left fun tx _ => hself tx, List.map_id']

/-! ## Kept actions -/

/-- The batch from which the runs are taken. -/
abbrev Batch.candidates (b : Batch) : Batch := b.distinct.satisfiable

/-- Pruning keeps of the candidates what is reached. -/
theorem prune_eq_keeping (b : Batch) (st : NonceTable) :
    b.prune st = b.candidates.keeping (reaches st (b.candidates.runEnds st)) := rfl

/-- Whether an authorization stays: the transaction does not defeat it, and it stands in the run of
its account. -/
def Transaction.retains (tx : Transaction) (st ends : NonceTable) (a : Action) : Bool :=
  !tx.defeats a && reaches st ends a

/-- A transaction that is kept loses the repeated authorizations and those that do not stay. -/
theorem mem_prune {tx : Transaction} : tx ∈ b.prune st ↔
    ∃ tx' ∈ b.distinct, reaches st (b.candidates.runEnds st) tx'.main ∧
      tx = ⟨tx'.main,
        (keepFirst id tx'.auth).filter (tx'.retains st (b.candidates.runEnds st))⟩ := by
  have hauth (tx' : Transaction) :
      tx'.satisfiable.auth.filter (reaches st (b.candidates.runEnds st)) =
        (keepFirst id tx'.auth).filter (tx'.retains st (b.candidates.runEnds st)) := by
    have hkeep : keepFirst id (tx'.auth.filter fun a => !tx'.defeats a) =
        (keepFirst id tx'.auth).filter fun a => !tx'.defeats a :=
      keepFirst_filter fun _ _ _ _ hxy => congrArg (fun a => !tx'.defeats a) hxy
    rw [Transaction.satisfiable, hkeep, List.filter_filter]
    exact List.filter_congr fun a _ => Bool.and_comm ..
  unfold Batch.prune Batch.reachable Batch.satisfiable
  rw [List.mem_map]
  constructor
  · rintro ⟨tx', htx', rfl⟩
    rcases List.mem_filter.1 htx' with ⟨hmem, hreach⟩
    rcases List.mem_map.1 hmem with ⟨tx'', htx'', rfl⟩
    exact ⟨tx'', htx'', hreach, congrArg (Transaction.mk tx''.main) (hauth tx'')⟩
  · rintro ⟨tx', htx', hreach, rfl⟩
    exact ⟨tx'.satisfiable, List.mem_filter.2 ⟨List.mem_map_of_mem htx', hreach⟩,
      congrArg (Transaction.mk tx'.main) (hauth tx')⟩

/-- A candidate names no account that the transaction does not name from which it comes. -/
theorem exists_of_mem_candidates {tx : Transaction} (htx : tx ∈ b.candidates) :
    ∃ tx' ∈ b, tx.senders ⊆ tx'.senders := by
  rcases List.mem_map.1 htx with ⟨tx', htx', rfl⟩
  refine ⟨tx', (sublist_keepFirst _ _).subset htx', ?_⟩
  have hauth : tx'.satisfiable.auth.Sublist tx'.auth :=
    (sublist_keepFirst _ _).trans List.filter_sublist
  exact ((hauth.cons_cons tx'.main).map Action.sender).subset

/-- A transaction that is kept is a submitted one without some of its authorizations. -/
theorem exists_sublist_of_mem_prune {tx : Transaction} (htx : tx ∈ b.prune st) :
    ∃ tx' ∈ b, tx.main = tx'.main ∧ tx.auth.Sublist tx'.auth := by
  rcases mem_prune.1 htx with ⟨tx', htx', _, rfl⟩
  exact ⟨tx', (sublist_keepFirst _ _).subset htx', rfl,
    List.filter_sublist.trans (sublist_keepFirst _ _)⟩

/-- What is left of a transaction names no account that the transaction does not. -/
theorem exists_of_mem_prune {tx : Transaction} (htx : tx ∈ b.prune st) :
    ∃ tx' ∈ b, tx.senders ⊆ tx'.senders := by
  rcases exists_sublist_of_mem_prune htx with ⟨tx', htx', hmain, hauth⟩
  have hactions : tx.actions.Sublist tx'.actions := by
    unfold Transaction.actions
    rw [hmain]
    exact hauth.cons_cons tx'.main
  exact ⟨tx', htx', (hactions.map Action.sender).subset⟩

/-- Every action that is kept stands in the run of its account. -/
theorem reaches_of_mem_prune {a : Action} (ha : a ∈ (b.prune st).actions) :
    reaches st (b.candidates.runEnds st) a := by
  rcases List.mem_flatMap.1 ha with ⟨tx, htx, hmem⟩
  rcases mem_prune.1 htx with ⟨tx', _, hreach, rfl⟩
  rcases List.mem_cons.1 hmem with rfl | hauth
  · exact hreach
  · have hretained := (List.mem_filter.1 hauth).2
    unfold Transaction.retains at hretained
    exact (Bool.and_eq_true _ _ ▸ hretained).2

/-- No action with the last nonce is left. -/
theorem lt_last_of_mem_prune {a : Action} (ha : a ∈ (b.prune st).actions) :
    a.nonce < Nonce.last :=
  UInt64.lt_of_lt_of_le (reaches_iff.1 (reaches_of_mem_prune ha)).2 (Nonce.toNat_le_last _)

/-- No main action with the last nonce is left. -/
theorem main_lt_last_of_mem_prune {tx : Transaction} (htx : tx ∈ b.prune st) :
    tx.main.nonce < Nonce.last :=
  lt_last_of_mem_prune (Batch.main_mem_actions htx)

/-- Every main action is kept once at most. -/
theorem nodup_mains_prune (b : Batch) (st : NonceTable) : (b.prune st).mains.Nodup := by
  have hdistinct : b.distinct.mains.Nodup := nodup_map_keepFirst Transaction.main b
  have hcandidates : b.candidates.mains = b.distinct.mains := by
    unfold Batch.candidates Batch.satisfiable Batch.mains
    rw [List.map_map]
    rfl
  have hmains : (b.prune st).mains.Sublist b.candidates.mains := by
    rw [prune_eq_keeping, Batch.keeping, Batch.mains, List.map_map]
    exact List.filter_sublist.map Transaction.main
  exact (hcandidates ▸ hdistinct).sublist hmains

/-- In a transaction that is kept no authorization is repeated. -/
theorem nodup_auth_of_mem_prune {tx : Transaction} (htx : tx ∈ b.prune st) : tx.auth.Nodup := by
  rcases mem_prune.1 htx with ⟨tx', _, _, rfl⟩
  exact (nodup_keepFirst_id tx'.auth).filter _

/-- In a transaction that is kept no authorization stands for the account of the main action at its
nonce or below. -/
theorem main_lt_of_mem_auth_prune {tx : Transaction} (htx : tx ∈ b.prune st) {a : Action}
    (ha : a ∈ tx.auth) (hsender : a.sender = tx.main.sender) : tx.main.nonce < a.nonce := by
  rcases mem_prune.1 htx with ⟨tx', _, _, rfl⟩
  have hretained := (List.mem_filter.1 ha).2
  rw [Transaction.retains, Bool.and_eq_true, Bool.not_eq_true'] at hretained
  apply UInt64.not_le.1
  intro hle
  have hdefeats : tx'.defeats a := by
    rw [Transaction.defeats, Bool.and_eq_true, decide_eq_true_eq, decide_eq_true_eq]
    exact ⟨hsender, hle⟩
  rw [hretained.1] at hdefeats
  cases hdefeats

/-- Executing transactions that are kept takes no account beyond the end of its run. -/
theorem get_le_of_replay?_prune {c : Batch} (hc : c ⊆ b.prune st)
    (hreplay : st.replay? c = some u) (s : Address) :
    u.get s ≤ (b.candidates.runEnds st).get s := by
  refine NonceTable.get_le_of_replay?_of_lt hreplay (get_le_get_runEnds _ _ _) ?_
  rintro a ha rfl
  exact (reaches_iff.1 (reaches_of_mem_prune (Batch.actions_subset hc ha))).2

/-! ## Dropped main actions -/

/-- Every main action is left by the first pass. -/
theorem exists_distinct {tx : Transaction} (htx : tx ∈ b) :
    ∃ tx' ∈ b.distinct, tx'.main = tx.main :=
  List.mem_map.1 (mem_map_keepFirst.2 (List.mem_map_of_mem (f := Transaction.main) htx))

/-- A main action of the batch is kept if it stands in the run of its account. -/
theorem main_mem_prune {tx : Transaction} (htx : tx ∈ b)
    (hreach : reaches st (b.candidates.runEnds st) tx.main) :
    ∃ tx' ∈ b.prune st, tx'.main = tx.main := by
  rcases exists_distinct htx with ⟨tx', htx', hmain⟩
  rw [← hmain] at hreach ⊢
  exact ⟨_, mem_prune.2 ⟨tx', htx', hreach, rfl⟩, rfl⟩

/-- Every main action is an action of the candidates. -/
theorem main_mem_actions_candidates {tx : Transaction} (htx : tx ∈ b) :
    tx.main ∈ b.candidates.actions := by
  rcases exists_distinct htx with ⟨tx', htx', hmain⟩
  refine List.mem_flatMap.2 ⟨tx'.satisfiable, List.mem_map_of_mem htx', ?_⟩
  rw [← hmain]
  exact List.mem_cons_self

/-- A main action outside the run of its account is not next in turn as long as the account stays
within the run. -/
theorem get_ne_of_not_reaches {tx : Transaction} (htx : tx ∈ b)
    (hknown : (st.find? tx.main.sender).isSome) (hlast : tx.main.nonce < Nonce.last)
    (hout : ¬ reaches st (b.candidates.runEnds st) tx.main)
    (hle : st.get tx.main.sender ≤ u.get tx.main.sender)
    (hstop : u.get tx.main.sender ≤ (b.candidates.runEnds st).get tx.main.sender) :
    u.get tx.main.sender ≠ tx.main.nonce := by
  intro hturn
  rw [hturn] at hle hstop
  exact hout (reaches_of_le_of_le (main_mem_actions_candidates htx) hknown hlast hle hstop)

end BatchOrder
