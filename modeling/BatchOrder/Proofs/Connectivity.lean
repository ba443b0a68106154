import Mathlib.Data.Set.Defs
import Mathlib.Logic.Relation
import BatchOrder.Proofs.LinkGraph

/-!
# Components are connected

A search gives its label only to nodes that paths of links connect with its first node, and leaves
the labels of earlier searches as they are.  As every search takes a new label and every node is
labelled in the end, two nodes have the same label exactly if a path connects them.  In the graph of
a batch, the nodes are the accounts, and a path of links is a chain of transactions each of which
names two neighbouring accounts.

Main results:

- Theorem `Spread.flood`: a search labels only what is connected with its start.
- Theorem `components_eq_iff`: nodes belong to one component exactly if they are connected.
- Theorem `components_ofBatch_eq_iff`: accounts of a batch belong to one component exactly if
  transactions join them.
-/

namespace BatchOrder

namespace LinkGraph

/-- A path of links leads from one node to another. -/
def Connected (g : LinkGraph) : Address → Address → Prop :=
  Relation.ReflTransGen fun a b => b ∈ g.neighboursOf a

variable {g : LinkGraph} {a b : Address}

/-- A path of links can be gone back. -/
theorem Sound.connected_symm (hg : g.Sound) (h : g.Connected a b) : g.Connected b a := by
  induction h with
  | refl => exact .refl
  | tail _ hstep ih => exact .head (hg.symm _ _ hstep) ih

/-! ## What a search adds -/

/-- The state of a search from a node, on labels that were there before: those are kept, and what is
new or waits is connected with the node that the search started from. -/
structure Spread (g : LinkGraph) (label : Nat) (start : Address) (old : Labels)
    (search : Labels × List Address) : Prop where
  keeps : ∀ (x : Address) l, old[x]? = some l → search.1[x]? = some l
  adds : ∀ (x : Address) l, search.1[x]? = some l →
    old[x]? = some l ∨ (l = label ∧ g.Connected start x)
  waits : ∀ x ∈ search.2, g.Connected start x

variable {label : Nat} {start : Address} {old : Labels} {search : Labels × List Address}

/-- Visiting a node that is connected with the start labels only what is connected with it. -/
theorem Spread.visit (h : Spread g label start old search) (ha : g.Connected start a) :
    Spread g label start old (visit label search a) := by
  unfold LinkGraph.visit
  split
  · exact h
  · next hnew =>
    have hl : search.1[a]? = none := contains_eq_false_iff.1 (Bool.eq_false_iff.2 hnew)
    refine ⟨fun x l hx => ?_, fun x l hx => ?_, fun x hx => ?_⟩
    · have hkept := h.keeps x l hx
      have hne : a ≠ x := by
        intro hax
        rw [← hax, hl] at hkept
        cases hkept
      rw [getElem?_insert, if_neg hne]
      exact hkept
    · rw [getElem?_insert] at hx
      by_cases hax : a = x
      · rw [if_pos hax] at hx
        exact .inr ⟨(Option.some.inj hx).symm, hax ▸ ha⟩
      · rw [if_neg hax] at hx
        exact h.adds x l hx
    · rcases List.mem_cons.1 hx with rfl | hx
      · exact ha
      · exact h.waits x hx

/-- Visiting nodes that are connected with the start labels only what is connected with it. -/
theorem Spread.foldl_visit (h : Spread g label start old search) {as : List Address}
    (has : ∀ a ∈ as, g.Connected start a) :
    Spread g label start old (as.foldl (LinkGraph.visit label) search) := by
  induction as generalizing search with
  | nil => exact h
  | cons a as ih =>
      apply ih (h.visit (has a List.mem_cons_self))
      intro a' ha'
      exact has a' (List.mem_cons_of_mem _ ha')

/-- However many nodes it takes from its stack, a search labels only what is connected with its
start. -/
theorem Spread.flood (h : Spread g label start old search) (n : Nat) :
    Spread g label start old (g.flood label n search, []) := by
  have hdone (s : Labels × List Address) (hs : Spread g label start old s) :
      Spread g label start old (s.1, []) :=
    ⟨hs.keeps, hs.adds, fun _ hx => absurd hx List.not_mem_nil⟩
  fun_induction LinkGraph.flood g label n search with
  | case1 => exact hdone _ h
  | case2 => exact hdone _ h
  | case3 n labels a stack ih =>
      have ha := h.waits a List.mem_cons_self
      rw [← Array.foldl_toList] at ih ⊢
      apply ih
      apply Spread.foldl_visit
      · exact ⟨h.keeps, h.adds, fun x hx => h.waits x (List.mem_cons_of_mem _ hx)⟩
      · intro b hb
        exact ha.tail hb

/-! ## Numbers of components -/

/-- Between two searches: all numbers that were given lie below the next free one, and only nodes
that are connected were given the same. -/
structure Numbered (g : LinkGraph) (found : Labels × Nat) : Prop where
  below : ∀ (x : Address) l, found.1[x]? = some l → l < found.2
  connected : ∀ (x y : Address) l, found.1[x]? = some l → found.1[y]? = some l → g.Connected x y

/-- A whole search labels only what is connected with the node that it starts from. -/
theorem spread_labelFrom {found : Labels × Nat} (hnew : found.1[a]? = none) :
    Spread g found.2 a found.1
      (g.flood found.2 g.nodeCount (found.1.insert a found.2, [a]), []) := by
  have hbegun : Spread g found.2 a found.1 (found.1, []) :=
    ⟨fun _ _ hx => hx, fun _ _ hx => .inl hx, fun _ hx => absurd hx List.not_mem_nil⟩
  have hvisit := hbegun.visit (a := a) .refl
  have hout : found.1.contains a = false := contains_eq_false_iff.2 hnew
  simp only [LinkGraph.visit, hout, Bool.false_eq_true, if_false] at hvisit
  exact hvisit.flood _

/-- A search keeps the numbers in order.  Its own number is new, as all that were given before lie
below it. -/
theorem Numbered.labelFrom {found : Labels × Nat} (h : Numbered g found) (hg : g.Sound)
    (a : Address) : Numbered g (g.labelFrom found a) := by
  unfold LinkGraph.labelFrom
  split
  · exact h
  · next hnew =>
    have hspread := spread_labelFrom (g := g) (contains_eq_false_iff.1 (Bool.eq_false_iff.2 hnew))
    have hfresh (x : Address) (hx : found.1[x]? = some found.2) : False :=
      Nat.lt_irrefl _ (h.below x found.2 hx)
    refine ⟨fun x l hx => ?_, fun x y l hx hy => ?_⟩
    · rcases hspread.adds x l hx with hx | ⟨rfl, _⟩
      · exact Nat.lt_succ_of_lt (h.below x l hx)
      · exact Nat.lt_succ_self _
    · rcases hspread.adds x l hx with hx | ⟨rfl, hax⟩
      · rcases hspread.adds y l hy with hy | ⟨rfl, _⟩
        · exact h.connected x y l hx hy
        · exact (hfresh x hx).elim
      · rcases hspread.adds y _ hy with hy | ⟨_, hay⟩
        · exact (hfresh y hy).elim
        · exact (hg.connected_symm hax).trans hay

/-- A search starts with its first node labelled and waiting. -/
theorem spread_insert (g : LinkGraph) (label : Nat) (labels : Labels) (a : Address) :
    Spread g label a (labels.insert a label) (labels.insert a label, [a]) where
  keeps _ _ hx := hx
  adds _ _ hx := .inl hx
  waits x hx := by
    rw [List.mem_singleton.1 hx]
    exact .refl

/-- A node that has a label starts no search. -/
theorem labelFrom_of_contains {found : Labels × Nat} (hold : found.1.contains a) :
    g.labelFrom found a = found := if_pos hold

/-- A node without a label gets the next number. -/
theorem labelFrom_of_new {found : Labels × Nat} (hnew : found.1[a]? = none) :
    (g.labelFrom found a).1[a]? = some found.2 ∧ (g.labelFrom found a).2 = found.2 + 1 := by
  have hout : ¬ found.1.contains a := by rw [contains_eq_false_iff.2 hnew]; exact Bool.false_ne_true
  unfold LinkGraph.labelFrom
  rw [if_neg hout]
  refine ⟨((spread_insert g found.2 found.1 a).flood g.nodeCount).keeps a found.2 ?_, rfl⟩
  rw [getElem?_insert, if_pos rfl]

/-- Once it is its turn, a node has a label, and it keeps the label that it has. -/
theorem keeps_labelFrom (g : LinkGraph) (found : Labels × Nat) (a : Address) :
    (∃ l, (g.labelFrom found a).1[a]? = some l) ∧
      ∀ (x : Address) l, found.1[x]? = some l → (g.labelFrom found a).1[x]? = some l := by
  cases hl : found.1[a]? with
  | some l =>
      rw [labelFrom_of_contains (contains_of_getElem? hl)]
      exact ⟨⟨l, hl⟩, fun _ _ hx => hx⟩
  | none =>
      refine ⟨⟨found.2, (labelFrom_of_new hl).1⟩, ?_⟩
      unfold LinkGraph.labelFrom
      rw [contains_eq_false_iff.2 hl]
      exact (spread_labelFrom hl).keeps

theorem numbered_empty (g : LinkGraph) : Numbered g (∅, 0) where
  below x l hx := by simp at hx
  connected x y l hx _ := by simp at hx

/-- The numbers stay in order however many searches there are. -/
theorem Numbered.foldl_labelFrom {found : Labels × Nat} (h : Numbered g found) (hg : g.Sound)
    (as : List Address) : Numbered g (as.foldl g.labelFrom found) := by
  induction as generalizing found with
  | nil => exact h
  | cons a as ih => exact ih (h.labelFrom hg a)

/-- Once it is their turn, all nodes have labels, and they keep the labels that they have. -/
theorem keeps_foldl_labelFrom (g : LinkGraph) (found : Labels × Nat) (as : List Address) :
    (∀ a ∈ as, ∃ l, (as.foldl g.labelFrom found).1[a]? = some l) ∧
      ∀ (x : Address) l, found.1[x]? = some l → (as.foldl g.labelFrom found).1[x]? = some l := by
  induction as generalizing found with
  | nil => exact ⟨fun _ ha => absurd ha List.not_mem_nil, fun _ _ hx => hx⟩
  | cons a as ih =>
      rcases keeps_labelFrom g found a with ⟨⟨l, hself⟩, hkept⟩
      rcases ih (g.labelFrom found a) with ⟨hall, hkept'⟩
      refine ⟨fun x hx => ?_, fun x l hx => hkept' x l (hkept x l hx)⟩
      rcases List.mem_cons.1 hx with rfl | hx
      · exact ⟨l, hkept' _ l hself⟩
      · exact hall x hx

/-- In the end the numbers are in order, and every node has one. -/
theorem numbered_components (hg : g.Sound) :
    (∃ next, Numbered g (g.components, next)) ∧
      ∀ a ∈ g.nodes.toList, ∃ l, g.components[a]? = some l := by
  unfold components
  rw [← Array.foldl_toList]
  exact ⟨⟨_, g.numbered_empty.foldl_labelFrom hg _⟩, (keeps_foldl_labelFrom g (∅, 0) _).1⟩

/-- Nodes belong to the same component exactly if they are connected. -/
theorem components_eq_iff (hg : g.Sound) (ha : a ∈ g.nodes.toList) :
    g.components[a]? = g.components[b]? ↔ g.Connected a b := by
  constructor
  · intro hab
    rcases numbered_components hg with ⟨⟨next, hnumbered⟩, hall⟩
    rcases hall a ha with ⟨l, hl⟩
    exact hnumbered.connected a b l hl (hab ▸ hl)
  · intro hab
    induction hab with
    | refl => rfl
    | tail _ hstep ih => exact ih.trans (components_eq_of_mem_neighboursOf hg hstep)

/-! ## The graph of a batch -/

/-- A link makes no other accounts neighbours than the two that it joins. -/
theorem mem_neighboursOf_of_link {x y : Address} (hy : y ∈ (g.link a b).neighboursOf x) :
    y ∈ g.neighboursOf x ∨ (x = a ∧ y = b) ∨ (x = b ∧ y = a) := by
  unfold LinkGraph.link at hy
  dsimp only at hy
  split at hy
  · rw [neighboursOf_insert, neighboursOf_insert] at hy
    exact .inl hy
  · next hnew =>
    have hab : a ≠ b := fun hab => hnew (by simp [hab])
    have hjoined := (mem_neighboursOf_joined hab).1 hy
    rwa [neighboursOf_insert, neighboursOf_insert] at hjoined

/-- A chain of links makes only accounts of the chain neighbours. -/
theorem mem_neighboursOf_of_linkChain {as : List Address} {x y : Address}
    (hy : y ∈ (g.linkChain as).neighboursOf x) :
    y ∈ g.neighboursOf x ∨ (x ∈ as ∧ y ∈ as) := by
  fun_induction LinkGraph.linkChain g as with
  | case1 g => exact .inl hy
  | case2 g a =>
      rw [neighboursOf_insert] at hy
      exact .inl hy
  | case3 g a b rest ih =>
      rcases ih hy with hy | ⟨hx, hy⟩
      · rcases mem_neighboursOf_of_link hy with hy | ⟨rfl, rfl⟩ | ⟨rfl, rfl⟩
        · exact .inl hy
        · exact .inr ⟨by simp, by simp⟩
        · exact .inr ⟨by simp, by simp⟩
      · exact .inr ⟨List.mem_cons_of_mem _ hx, List.mem_cons_of_mem _ hy⟩

/-- A link adds the two accounts that it joins to the nodes, and no others. -/
theorem Sound.mem_nodes_link (hg : g.Sound) {x : Address} :
    x ∈ (g.link a b).nodes.toList ↔ x ∈ g.nodes.toList ∨ x = a ∨ x = b := by
  rw [nodes_link, (hg.insert a).mem_nodes_insert, hg.mem_nodes_insert, or_assoc]

/-- A chain of links adds its accounts to the nodes, and no others. -/
theorem Sound.mem_nodes_linkChain (hg : g.Sound) {as : List Address} {x : Address} :
    x ∈ (g.linkChain as).nodes.toList ↔ x ∈ g.nodes.toList ∨ x ∈ as := by
  fun_induction LinkGraph.linkChain g as with
  | case1 g => simp
  | case2 g a => rw [hg.mem_nodes_insert, List.mem_singleton]
  | case3 g a b rest ih =>
      rw [ih (hg.link a b).1, hg.mem_nodes_link]
      simp only [List.mem_cons]
      tauto

end LinkGraph

/-- The accounts that a batch names. -/
def Batch.named (b : Batch) : Set Address := {s | s ∈ b.senders}

/-- The accounts that a batch names are those that its transactions name. -/
theorem Batch.mem_named {b : Batch} {s : Address} :
    s ∈ b.named ↔ ∃ tx ∈ b, s ∈ tx.senders := by
  change s ∈ (b.flatMap Transaction.actions).map Action.sender ↔ _
  rw [List.map_flatMap, List.mem_flatMap]
  rfl

/-- A batch names the accounts of its actions. -/
theorem Batch.sender_mem_named {b : Batch} {a : Action} (ha : a ∈ b.actions) :
    a.sender ∈ b.named :=
  List.mem_map_of_mem ha

/-- A batch names the account of every action of one of its transactions. -/
theorem Batch.mem_named_of_mem_actions {b : Batch} {tx : Transaction} (htx : tx ∈ b) {a : Action}
    (ha : a ∈ tx.actions) : a.sender ∈ b.named :=
  Batch.mem_named.2 ⟨tx, htx, List.mem_map_of_mem ha⟩

/-- A batch names the account of every main action. -/
theorem mains_mem_named {b : Batch} {tx : Transaction} (htx : tx ∈ b) :
    tx.main.sender ∈ b.named :=
  Batch.mem_named_of_mem_actions htx List.mem_cons_self

namespace Batch

/-- A transaction of the batch names both accounts. -/
def NamesBoth (b : Batch) (s t : Address) : Prop := ∃ tx ∈ b, s ∈ tx.senders ∧ t ∈ tx.senders

/-- A chain of transactions leads from one account to another, each naming two accounts that follow
one another. -/
def Joined (b : Batch) : Address → Address → Prop := Relation.ReflTransGen b.NamesBoth

end Batch

namespace LinkGraph

variable {b : Batch} {s t : Address}

/-- Accounts are only linked if a transaction names both. -/
theorem namesBoth_of_mem_neighboursOf (ht : t ∈ (ofBatch b).neighboursOf s) : b.NamesBoth s t := by
  have hfold (txs : Batch) (g : LinkGraph)
      (ht : t ∈ (txs.foldl (fun g tx => g.linkChain tx.senders) g).neighboursOf s) :
      t ∈ g.neighboursOf s ∨ Batch.NamesBoth txs s t := by
    induction txs generalizing g with
    | nil => exact .inl ht
    | cons tx txs ih =>
        rcases ih _ ht with ht | ⟨tx', htx', hnames⟩
        · rcases mem_neighboursOf_of_linkChain ht with ht | hnames
          · exact .inl ht
          · exact .inr ⟨tx, List.mem_cons_self, hnames⟩
        · exact .inr ⟨tx', List.mem_cons_of_mem _ htx', hnames⟩
  rcases hfold b ∅ ht with ht | hnames
  · change t ∈ ((∅ : Std.HashMap Address (Array Address)).getD s #[]).toList at ht
    simp at ht
  · exact hnames

/-- The nodes of the graph of a batch are the accounts that the batch names. -/
theorem mem_nodes_ofBatch : s ∈ (ofBatch b).nodes.toList ↔ s ∈ b.named := by
  have hfold (txs : Batch) (g : LinkGraph) (hg : g.Sound) :
      s ∈ (txs.foldl (fun g tx => g.linkChain tx.senders) g).nodes.toList ↔
        s ∈ g.nodes.toList ∨ ∃ tx ∈ txs, s ∈ tx.senders := by
    induction txs generalizing g with
    | nil => simp
    | cons tx txs ih =>
        rw [List.foldl_cons, ih _ (hg.linkChain tx.senders).1, hg.mem_nodes_linkChain, or_assoc]
        simp
  rw [ofBatch, hfold b ∅ sound_empty, Batch.mem_named]
  change s ∈ [] ∨ _ ↔ _
  simp

/-- Every main action of a batch belongs to a component. -/
theorem contains_components_ofBatch {tx : Transaction} (htx : tx ∈ b) :
    (ofBatch b).components.contains tx.main.sender := by
  have hnode := mem_nodes_ofBatch.2 (mains_mem_named htx)
  rcases (numbered_components (sound_ofBatch b).1).2 _ hnode with ⟨l, hl⟩
  exact contains_of_getElem? hl

/-- Accounts of a batch belong to the same component exactly if transactions join them. -/
theorem components_ofBatch_eq_iff (hs : s ∈ b.named) :
    (ofBatch b).components[s]? = (ofBatch b).components[t]? ↔ b.Joined s t := by
  constructor
  · intro hst
    have hpath := (components_eq_iff (sound_ofBatch b).1 (mem_nodes_ofBatch.2 hs)).1 hst
    exact Relation.ReflTransGen.mono (fun _ _ => namesBoth_of_mem_neighboursOf) _ _ hpath
  · intro hst
    induction hst with
    | refl => rfl
    | tail _ hstep ih =>
        rcases hstep with ⟨tx, htx, hx, hy⟩
        rw [ih, ← components_ofBatch_eq htx hx, components_ofBatch_eq htx hy]

end LinkGraph

end BatchOrder
