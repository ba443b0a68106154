import Mathlib.Data.List.Induction
import BatchOrder.Proofs.KeepFirst
import BatchOrder.Proofs.Replay

/-!
# Repeated authorizations

An authorization that a list repeats is spent at its first occurrence or at a later one, whichever
comes when its turn has come.  So dropping the repeats may change what the list does to the nonces:
if an authorization stands first after its successor, a repeat of the successor may still find its
turn.  This is the only way in which a repeat can have an effect.

Main results:

- Theorem `foldl_spend_keepFirst`: repeats that are in turn have no effect.
- Theorem `repeatsInTurn_iff`: others have one from some nonces.
-/

namespace BatchOrder

/-! ## Repeats that are in turn -/

open NonceTable

/-- An action that first occurs after its successor has no repeat of the successor behind it. -/
def RepeatsInTurn (as : List Action) : Prop :=
  ∀ i (h : i < as.length), as[i] ∉ as.take i → as[i].succ ∈ as.take i → as[i].succ ∉ as.drop (i + 1)

instance (as : List Action) : Decidable (RepeatsInTurn as) :=
  inferInstanceAs (Decidable (∀ i (h : i < as.length),
    as[i] ∉ as.take i → as[i].succ ∈ as.take i → as[i].succ ∉ as.drop (i + 1)))

/-- Whether repeats are in turn, told by the parts before and behind an action. -/
theorem repeatsInTurn_iff_split {as : List Action} : RepeatsInTurn as ↔
    ∀ pre a post, as = pre ++ a :: post → a ∉ pre → a.succ ∈ pre → a.succ ∉ post := by
  constructor
  · rintro h pre a post rfl hnew hsucc
    have hi : pre.length < (pre ++ a :: post).length := by simp
    have := h pre.length hi
    simpa [hnew, hsucc] using this
  · intro h i hi hnew hsucc
    refine h (as.take i) as[i] (as.drop (i + 1)) ?_ hnew hsucc
    rw [List.getElem_cons_drop, List.take_append_drop]

/-- An account that gets from below a nonce to it spends the action right before. -/
theorem exists_spend_of_lt_of_eq {st : NonceTable} {as : List Action} {a : Action}
    (hlt : st.get a.sender < a.nonce) (heq : (as.foldl spend st).get a.sender = a.nonce) :
    ∃ pre k post, as = pre ++ k :: post ∧ (pre.foldl spend st).get k.sender = k.nonce ∧
      k.nonce < a.nonce ∧ k.succ = a := by
  induction as generalizing st with
  | nil =>
      rw [List.foldl_nil] at heq
      rw [heq] at hlt
      exact absurd hlt (UInt64.lt_irrefl _)
  | cons k as ih =>
      have hle : (st.spend k).get a.sender ≤ a.nonce := by
        rw [← heq]
        exact get_le_get_foldl_spend ..
      rcases UInt64.lt_or_eq_of_le hle with hlt' | heq'
      · rcases ih hlt' heq with ⟨pre, k', post, rfl, hturn, hk⟩
        exact ⟨k :: pre, k', post, rfl, hturn, hk⟩
      · rw [get_spend] at heq'
        split at heq'
        · next hturn =>
          rcases hturn with ⟨hsender, hnonce⟩
          refine ⟨[], k, as, rfl, ?_, hnonce ▸ hlt, ?_⟩
          · rw [List.foldl_nil, hsender, hnonce]
          · rw [← hnonce] at heq'
            cases a
            exact congrArg₂ Action.mk hsender heq'
        · rw [heq'] at hlt
          exact absurd hlt (UInt64.lt_irrefl _)

/-- A repeat that is in turn never finds its turn.  For the first of all that do, the first
occurrence was out of turn, with the account still below the nonce, and the account came to the
nonce after it; so the action before it in turn was spent in between, and that was its own first
occurrence. -/
theorem nonce_ne_of_repeat {as : List Action} (h : RepeatsInTurn as) (st : NonceTable)
    {pre post : List Action} {a : Action} (has : as = pre ++ a :: post) (ha : a ∈ pre)
    (hlast : a.nonce < Nonce.last) : (pre.foldl spend st).get a.sender ≠ a.nonce := by
  induction hn : pre.length using Nat.strongRecOn generalizing pre a post with
  | ind n ih =>
      intro hturn
      rcases List.append_of_mem ha with ⟨before, after, rfl⟩
      rw [List.foldl_append, List.foldl_cons] at hturn
      have hle : ((before.foldl spend st).spend a).get a.sender ≤ a.nonce := by
        rw [← hturn]
        exact get_le_get_foldl_spend ..
      have hlt : ((before.foldl spend st).spend a).get a.sender < a.nonce := by
        by_cases hfirst : a.nonce = (before.foldl spend st).get a.sender
        · rw [get_spend, if_pos ⟨rfl, hfirst⟩, ← hfirst] at hle
          exact absurd (Nonce.lt_succ hlast) (UInt64.not_lt.2 hle)
        · refine UInt64.lt_of_le_of_ne hle ?_
          rw [get_spend, if_neg fun hand => hfirst hand.2]
          exact Ne.symm hfirst
      rcases exists_spend_of_lt_of_eq hlt hturn with ⟨mid, k, rest, rfl, hk, hklt, rfl⟩
      have hsplit : as = (before ++ k.succ :: mid) ++ k :: (rest ++ k.succ :: post) := by
        rw [has]
        simp
      by_cases hrepeat : k ∈ before ++ k.succ :: mid
      · refine ih _ ?_ hsplit hrepeat (UInt64.lt_trans hklt hlast) rfl ?_
        · rw [← hn]
          simp
        · rw [List.foldl_append, List.foldl_cons]
          exact hk
      · exact repeatsInTurn_iff_split.1 h _ k _ hsplit hrepeat (by simp) (by simp)

/-- Spending an action with the last nonce has no effect. -/
theorem spend_eq_self_of_last {st : NonceTable} {a : Action} (ha : a.nonce = Nonce.last) :
    st.spend a = st := by
  unfold spend
  split
  · next hturn =>
    have hget : st.get a.sender = Nonce.last := hturn.symm.trans ha
    refine ext_find? fun s => ?_
    rw [find?_advance, hget, Nonce.succ_last]
    split
    · next hs =>
      subst hs
      unfold NonceTable.get at hget
      cases hfind : st.find? a.sender with
      | none =>
          rw [hfind] at hget
          exact absurd hget (by decide)
      | some n =>
          rw [hfind] at hget
          exact congrArg some hget.symm
    · rfl
  · rfl

/-- Repeats that are in turn have no effect. -/
theorem foldl_spend_keepFirst {as : List Action} (h : RepeatsInTurn as) (st : NonceTable) :
    (keepFirst id as).foldl spend st = as.foldl spend st := by
  have hprefix (pre post : List Action) (has : as = pre ++ post) :
      (keepFirst id pre).foldl spend st = pre.foldl spend st := by
    induction pre using List.reverseRecOn generalizing post with
    | nil => rfl
    | append_singleton pre a ih =>
        rw [List.append_assoc, List.singleton_append] at has
        rw [keepFirst_append_singleton, List.foldl_append, ← ih _ has]
        split
        · next ha =>
          rw [List.foldl_cons, List.foldl_nil, ih _ has]
          rcases UInt64.lt_or_eq_of_le (Nonce.toNat_le_last a.nonce) with hlast | hlast
          · exact (if_neg (Ne.symm (nonce_ne_of_repeat h st has ha hlast))).symm
          · exact (spend_eq_self_of_last hlast).symm
        · rw [List.foldl_append]
  exact hprefix as [] (List.append_nil as).symm

/-! ## Repeats that are not -/

/-- An account whose next action is not spent stays where it is. -/
theorem get_foldl_spend_of_not_mem {st : NonceTable} {as : List Action} {a : Action}
    (ha : a ∉ as) (hturn : st.get a.sender = a.nonce) :
    (as.foldl spend st).get a.sender = a.nonce := by
  induction as generalizing st with
  | nil => exact hturn
  | cons k as ih =>
      rw [List.mem_cons, not_or] at ha
      refine ih ha.2 ?_
      rw [get_spend, if_neg ?_, hturn]
      rintro ⟨hsender, hnonce⟩
      apply ha.1
      cases a; cases k
      simp_all

/-- An account whose next action is spent gets beyond it. -/
theorem lt_get_foldl_spend_of_mem {st : NonceTable} {as : List Action} {a : Action} (ha : a ∈ as)
    (hturn : st.get a.sender = a.nonce) (hlast : a.nonce < Nonce.last) :
    a.nonce < (as.foldl spend st).get a.sender := by
  rcases List.append_of_mem ha with ⟨pre, post, rfl⟩
  rw [List.foldl_append, List.foldl_cons]
  refine UInt64.lt_of_lt_of_le ?_ (get_le_get_foldl_spend ..)
  have hle : a.nonce ≤ (pre.foldl spend st).get a.sender := by
    rw [← hturn]
    exact get_le_get_foldl_spend ..
  rw [get_spend]
  rcases UInt64.lt_or_eq_of_le hle with hlt | heq
  · split
    · exact UInt64.lt_of_lt_of_le hlt (Nonce.le_succ _)
    · exact hlt
  · rw [if_pos ⟨rfl, heq⟩, ← heq]
    exact Nonce.lt_succ hlast

/-- Dropping the repeats of a list changes nothing, from any nonces, exactly if they are in turn.
If one is not, then from its nonce the list spends the action and after it the successor, of which
only the occurrence before the action is kept. -/
theorem repeatsInTurn_iff {as : List Action} (hlast : ∀ a ∈ as, a.nonce < Nonce.last) :
    RepeatsInTurn as ↔ ∀ st : NonceTable, (keepFirst id as).foldl spend st = as.foldl spend st := by
  refine ⟨foldl_spend_keepFirst, fun h => ?_⟩
  rw [repeatsInTurn_iff_split]
  rintro pre a post rfl hnew hsucc hrepeat
  let st : NonceTable := (∅ : NonceTable).set a.sender a.nonce
  have hst : st.get a.sender = a.nonce := by rw [get_set, if_pos rfl]
  have hlastSucc : a.succ.nonce < Nonce.last := hlast _ (List.mem_append_left _ hsucc)
  have hspent (u : NonceTable) (hu : u.get a.sender = a.nonce) :
      (u.spend a).get a.succ.sender = a.succ.nonce := by
    have hsender : a.succ.sender = a.sender := rfl
    rw [hsender, get_spend, if_pos ⟨rfl, hu.symm⟩, hu]
    rfl
  have hfull : a.succ.nonce < ((pre ++ a :: post).foldl spend st).get a.succ.sender := by
    rw [List.foldl_append, List.foldl_cons]
    exact lt_get_foldl_spend_of_mem hrepeat (hspent _ (get_foldl_spend_of_not_mem hnew hst))
      hlastSucc
  have hseen (k : Action) : k ∈ Std.HashSet.ofList pre ↔
      k ∈ (∅ : Std.HashSet Action) ∨ k ∈ pre.map id := by simp [Std.HashSet.mem_ofList]
  have hnewSeen : id a ∉ Std.HashSet.ofList pre := by simp [hseen, hnew]
  have hkept : keepFirst id (pre ++ a :: post) = keepFirst id pre ++
      a :: keepFirstBeyond id ((Std.HashSet.ofList pre).insert a) post := by
    rw [keepFirst, keepFirstBeyond_append hseen, keepFirstBeyond_cons_of_not_mem hnewSeen]
    rfl
  have hdropped : a.succ ∉ keepFirstBeyond id ((Std.HashSet.ofList pre).insert a) post := by
    intro hmem
    refine (find?_of_mem_keepFirstBeyond hmem).1 ?_
    rw [Std.HashSet.mem_insert, hseen]
    exact .inr (.inr (by simpa using hsucc))
  have hpre : a ∉ keepFirst id pre := fun hmem => hnew ((sublist_keepFirst id pre).subset hmem)
  have hpart : ((keepFirst id (pre ++ a :: post)).foldl spend st).get a.succ.sender =
      a.succ.nonce := by
    rw [hkept, List.foldl_append, List.foldl_cons]
    exact get_foldl_spend_of_not_mem hdropped (hspent _ (get_foldl_spend_of_not_mem hpre hst))
  rw [h st] at hpart
  rw [hpart] at hfull
  exact UInt64.lt_irrefl _ hfull

end BatchOrder
