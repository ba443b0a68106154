import BatchOrder.Proofs.Planning

/-!
# The provider is asked once for every account

Planning asks for the nonce of every account that the batch names, in the order in which the
accounts first appear, and never again.  It makes no difference whether the accounts are singled out
beforehand or the batch is gone through and an account asked for if the table has no entry for it
yet: an entry counts even if it is zero.  So the answers for the named accounts decide about a plan,
and a provider that fails makes planning fail exactly if it fails for one of them.

Main results:

- Theorem `startingNonces_eq_foldlM`: the table is built by asking for what it does not hold yet.
- Theorems `tracedStartingNonces_eq` and `run_plan_traced`: what the lookups and a plan ask for.
- Theorem `exists_plan_eq_error_iff`: when a plan fails.
- Theorem `plan_asks_once`: the provider is asked once for every named account, and its other
  answers have no influence.
-/

namespace BatchOrder

open NonceTable

/-- The elements of a list, each once, in the order of their first appearance. -/
structure FirstAppearances (xs ys : List Address) : Prop where
  nodup : ys.Nodup
  mem_iff : ∀ a, a ∈ ys ↔ a ∈ xs
  ordered : ys.Pairwise fun a c => xs.idxOf a < xs.idxOf c

/-- The accounts asked for are those that the batch names, each once, in the order of their first
appearance. -/
theorem firstAppearances_namedAccounts (b : Batch) :
    FirstAppearances b.senders b.namedAccounts where
  nodup := nodup_keepFirst_id b.senders
  mem_iff _ := mem_keepFirst_id
  ordered := pairwise_idxOf_keepFirst b.senders

/-! ## Building the table -/

/-- Setting a nonce makes its account known and no other. -/
theorem NonceTable.contains_set {st : NonceTable} {a b : Address} {n : Nonce} :
    (st.set a n).contains b ↔ a = b ∨ st.contains b := by
  rw [contains_eq_isSome, contains_eq_isSome, find?_set]
  by_cases hab : a = b <;> simp [hab]

section Loop

variable {m : Type → Type} [Monad m]

/-- Ask for the nonce of an account that has no entry yet. -/
def NonceTable.askFor (lookup : Address → m Nonce) (st : NonceTable) (a : Address) :
    m NonceTable :=
  if st.contains a then pure st else do return st.set a (← lookup a)

variable [LawfulMonad m]

/-- The accounts that have been seen are those with an entry. -/
theorem foldlM_askFor (lookup : Address → m Nonce) (as : List Address) {seen : Std.HashSet Address}
    {st : NonceTable} (hseen : ∀ a, a ∈ seen ↔ st.contains a) :
    as.foldlM (askFor lookup) st = do
      let entries ← (keepFirstBeyond id seen as).mapM fun a => do return (a, ← lookup a)
      return entries.foldl (fun st e => st.set e.1 e.2) st := by
  induction as generalizing seen st with
  | nil => simp [keepFirstBeyond]
  | cons a as ih =>
      rw [List.foldlM_cons, askFor]
      by_cases ha : a ∈ seen
      · rw [if_pos ((hseen a).1 ha), keepFirstBeyond_cons_of_mem ha, pure_bind, ih hseen]
      · have hseen' (n : Nonce) (b : Address) : b ∈ seen.insert a ↔ (st.set a n).contains b := by
          rw [Std.HashSet.mem_insert, beq_iff_eq, hseen, contains_set]
        rw [if_neg fun h => ha ((hseen a).2 h), keepFirstBeyond_cons_of_not_mem ha]
        simp only [List.mapM_cons, bind_assoc, pure_bind, List.foldl_cons]
        congr 1
        funext n
        exact ih (hseen' n)

/-- The table of a batch is built by going through the accounts that it names and asking for those
that have no entry yet. -/
theorem startingNonces_eq_foldlM (b : Batch) (lookup : Address → m Nonce) :
    b.startingNonces lookup = b.senders.foldlM (askFor lookup) ∅ := by
  have hseen (a : Address) : a ∈ (∅ : Std.HashSet Address) ↔ (∅ : NonceTable).contains a := by
    simp [contains_eq_isSome]
  rw [foldlM_askFor lookup b.senders hseen]
  rfl

end Loop

/-! ## Plans with a record of what they ask for -/

section Traced

variable {ε : Type}

/-- Recording lookups in a row changes none of their answers, and records what each asks for. -/
theorem run_mapM_traced (lookup : Address → Except ε Nonce) (as : List Address)
    (calls : Array Address) :
    (as.mapM fun a => do return (a, ← traced lookup a)).run calls =
      (fun entries => (entries, calls ++ as.toArray)) <$>
        as.mapM fun a => do return (a, ← lookup a) := by
  induction as generalizing calls with
  | nil => simp
  | cons a as ih =>
      have hcalls : calls.push a ++ as.toArray = calls ++ (a :: as).toArray := by simp
      have hask : (traced lookup a).run calls = (fun n => (n, calls.push a)) <$> lookup a := rfl
      simp only [List.mapM_cons, StateT.run_bind, StateT.run_pure, hask, ih, hcalls, bind_assoc,
        pure_bind, map_eq_pure_bind]

/-- Recording changes nothing about the lookups, and what they ask for, if none fails, are the
accounts that the batch names. -/
theorem tracedStartingNonces_eq (b : Batch) (lookup : Address → Except ε Nonce) :
    b.tracedStartingNonces lookup =
      (fun st => (st, b.namedAccounts.toArray)) <$> b.startingNonces lookup := by
  unfold Batch.tracedStartingNonces Batch.startingNonces
  simp only [StateT.run_bind, StateT.run_pure, run_mapM_traced, map_eq_pure_bind, bind_assoc,
    pure_bind, Array.empty_append]

/-- A plan asks for nothing after the lookups. -/
theorem run_plan_traced (s : Settings) (b : Batch) (lookup : Address → Except ε Nonce)
    (seed : UInt64) :
    (s.plan b (traced lookup) seed).run #[] =
      (fun p => (p, b.namedAccounts.toArray)) <$> s.plan b lookup seed := by
  have htraced := tracedStartingNonces_eq b lookup
  unfold Batch.tracedStartingNonces at htraced
  unfold Settings.plan
  simp only [StateT.run_bind, StateT.run_pure, htraced, map_eq_pure_bind, bind_assoc, pure_bind]

/-- A row of computations fails exactly if one of them does. -/
theorem exists_mapM_eq_error_iff {α β : Type} {f : α → Except ε β} {xs : List α} :
    (∃ e, xs.mapM f = .error e) ↔ ∃ x ∈ xs, ∃ e, f x = .error e := by
  induction xs with
  | nil => simp [pure, Except.pure]
  | cons x xs ih =>
      rw [List.mapM_cons, List.exists_mem_cons_iff, ← ih]
      cases f x with
      | error e => simp [bind, Except.bind]
      | ok y => cases xs.mapM f <;> simp [bind, Except.bind, pure, Except.pure]

/-- Planning fails exactly if the provider fails for an account that the batch names. -/
theorem exists_plan_eq_error_iff {s : Settings} {b : Batch} {lookup : Address → Except ε Nonce}
    {seed : UInt64} :
    (∃ e, s.plan b lookup seed = .error e) ↔ ∃ a ∈ b.senders, ∃ e, lookup a = .error e := by
  have hplan : (∃ e, s.plan b lookup seed = .error e) ↔
      ∃ e, (b.namedAccounts.mapM fun a => do return (a, ← lookup a)) = .error e := by
    unfold Settings.plan Batch.startingNonces
    cases b.namedAccounts.mapM fun a => do return (a, ← lookup a) <;>
      simp [bind, Except.bind, pure, Except.pure]
  rw [hplan, exists_mapM_eq_error_iff]
  refine exists_congr fun a => and_congr mem_keepFirst_id ?_
  cases lookup a <;> simp [bind, Except.bind, pure, Except.pure]

end Traced

/-! ## Answers -/

section Answers

variable {m : Type → Type} [Monad m] [LawfulMonad m]

/-- Only the answers for the accounts that a batch names decide about its plan. -/
theorem plan_congr (s : Settings) {b : Batch} {lookup lookup' : Address → m Nonce}
    (h : ∀ a ∈ b.senders, lookup a = lookup' a) (seed : UInt64) :
    s.plan b lookup seed = s.plan b lookup' seed := by
  have hentries (as : List Address) (has : as ⊆ b.senders) :
      (as.mapM fun a => do return (a, ← lookup a)) =
        as.mapM fun a => do return (a, ← lookup' a) := by
    induction as with
    | nil => rfl
    | cons a as ih =>
        rcases List.cons_subset.1 has with ⟨ha, has⟩
        rw [List.mapM_cons, List.mapM_cons, h a ha, ih has]
  unfold Settings.plan Batch.startingNonces
  rw [hentries b.namedAccounts fun _ => mem_keepFirst_id.1]

/-- A provider that does nothing but answer yields the table of its answers. -/
theorem startingNonces_pure (b : Batch) (provider : Address → Nonce) :
    b.startingNonces (fun a => (pure (provider a) : m Nonce)) = pure (b.givenNonces provider) := by
  rw [Batch.givenNonces, startingNonces_eq]
  unfold Batch.startingNonces
  simp

end Answers

/-- The entries of the table are the provider's answers for the accounts that the batch names. -/
theorem find?_givenNonces (b : Batch) (provider : Address → Nonce) (a : Address) :
    (b.givenNonces provider).find? a = if a ∈ b.senders then some (provider a) else none := by
  rw [Batch.givenNonces, startingNonces_eq, NonceTable.ofList, find?_foldl_set, find?_empty]
  exact if_congr mem_keepFirst_id rfl rfl

/-- The table has the answer of the provider for every named account. -/
theorem get_givenNonces {b : Batch} {provider : Address → Nonce} {a : Address}
    (ha : a ∈ b.senders) : (b.givenNonces provider).get a = provider a := by
  rw [NonceTable.get, find?_givenNonces, if_pos ha, Option.getD_some]

/-- A provider, which may fail, is asked once for every account that a batch names, in the order of
first appearance, and the plan asks for nothing else.  The table holds its answers for these
accounts and no other entries; planning fails exactly if it fails for one of them; and providers
that agree on them are the same to the batch. -/
theorem plan_asks_once {ε : Type} (s : Settings) (b : Batch) (seed : UInt64) :
    FirstAppearances b.senders b.namedAccounts ∧
      (∀ lookup : Address → Except ε Nonce,
        b.startingNonces lookup = b.senders.foldlM (askFor lookup) ∅ ∧
          b.tracedStartingNonces lookup =
            (fun st => (st, b.namedAccounts.toArray)) <$> b.startingNonces lookup ∧
          (s.plan b (traced lookup) seed).run #[] =
            (fun p => (p, b.namedAccounts.toArray)) <$> s.plan b lookup seed ∧
          ((∃ e, s.plan b lookup seed = .error e) ↔ ∃ a ∈ b.senders, ∃ e, lookup a = .error e)) ∧
      (∀ provider : Address → Nonce, ∃ st : NonceTable,
        b.startingNonces (fun a => (.ok (provider a) : Except ε Nonce)) = .ok st ∧
          s.plan b (fun a => (.ok (provider a) : Except ε Nonce)) seed =
            .ok (s.planFrom b seed st) ∧
          ∀ a, st.find? a = if a ∈ b.senders then some (provider a) else none) ∧
      ∀ lookup lookup' : Address → Except ε Nonce, (∀ a ∈ b.senders, lookup a = lookup' a) →
        s.plan b lookup seed = s.plan b lookup' seed := by
  refine ⟨firstAppearances_namedAccounts b, fun lookup => ?_, fun provider => ?_,
    fun _ _ h => plan_congr s h seed⟩
  · exact ⟨startingNonces_eq_foldlM b lookup, tracedStartingNonces_eq b lookup,
      run_plan_traced s b lookup seed, exists_plan_eq_error_iff⟩
  · have htable : b.startingNonces (fun a => (.ok (provider a) : Except ε Nonce)) =
        .ok (b.givenNonces provider) := startingNonces_pure b provider
    refine ⟨b.givenNonces provider, htable, ?_, find?_givenNonces b provider⟩
    unfold Settings.plan
    rw [htable]
    rfl

end BatchOrder
