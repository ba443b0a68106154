import Mathlib.Data.List.Chain
import BatchOrder.LinkGraph

/-!
# Components of the graph of linked accounts

The search labels a node when it puts it on its stack and looks at the neighbours of a node when it
takes it from there.  So a labelled node off the stack has only neighbours with its own label, and
once the stack is empty linked nodes agree in their labels.  In the graph of a batch the accounts of
a transaction are linked in a chain, and so they all belong to one component.

Main results:

- Theorem `Flooding.flood`: the search closes the component that it has begun.
- Theorem `components_eq_of_mem_neighboursOf`: linked nodes belong to the same component.
- Theorem `components_ofBatch_eq`: so do all accounts of a transaction.
-/

namespace BatchOrder

namespace LinkGraph

/-- The nodes linked to an account. -/
def neighboursOf (g : LinkGraph) (a : Address) : List Address := (g.neighbours.getD a #[]).toList

/-! ## Links -/

/-- Two accounts make one pair in either order. -/
theorem pair_comm (a b : Address) : pair a b = pair b a := by
  have hswap : compare b a = (compare a b).swap := Std.OrientedCmp.eq_swap
  unfold pair
  rw [hswap]
  cases hab : compare a b with
  | lt => rfl
  | eq =>
      rw [Std.LawfulEqOrd.eq_of_compare hab]
      rfl
  | gt => rfl

/-- Pairs are equal if they are of the same two accounts. -/
theorem pair_eq_pair_iff {a b x y : Address} :
    pair a b = pair x y ↔ (x = a ∧ y = b) ∨ (x = b ∧ y = a) := by
  constructor
  · unfold pair
    split <;> split <;> intro h <;> obtain ⟨rfl, rfl⟩ := Prod.mk.inj h <;> simp
  · rintro (⟨rfl, rfl⟩ | ⟨rfl, rfl⟩)
    · rfl
    · exact pair_comm _ _

/-- The neighbours and the set of links tell of the same undirected links between nodes. -/
structure Sound (g : LinkGraph) : Prop where
  known : ∀ a, a ∈ g.neighbours ↔ a ∈ g.nodes.toList
  nodes : ∀ a b, b ∈ g.neighboursOf a → b ∈ g.nodes.toList
  symm : ∀ a b, b ∈ g.neighboursOf a → a ∈ g.neighboursOf b
  links : ∀ a b, g.linked a b → b ∈ g.neighboursOf a

theorem neighboursOf_empty (a : Address) : neighboursOf ∅ a = [] := by
  change ((∅ : Std.HashMap Address (Array Address)).getD a #[]).toList = []
  simp

theorem linked_empty (a b : Address) : linked ∅ a b = false := by
  change (∅ : Std.HashSet (Address × Address)).contains (pair a b) = false
  simp

theorem sound_empty : Sound ∅ where
  known a := by
    change a ∈ (∅ : Std.HashMap Address (Array Address)) ↔ a ∈ []
    simp
  nodes a b hb := by simp [neighboursOf_empty] at hb
  symm a b hb := by simp [neighboursOf_empty] at hb
  links a b hab := by simp [linked_empty] at hab

/-- A new node has no neighbours, and the others keep theirs. -/
@[simp]
theorem neighboursOf_insert (g : LinkGraph) (a x : Address) :
    (g.insert a).neighboursOf x = g.neighboursOf x := by
  unfold insert
  split
  · rfl
  · next hnew =>
    unfold neighboursOf
    rw [Std.HashMap.getD_insert]
    by_cases hax : a = x
    · subst hax
      rw [Std.HashMap.getD_eq_fallback (by simpa using hnew)]
      simp
    · simp [hax]

/-- A new node changes no link. -/
theorem linked_insert (g : LinkGraph) (a x y : Address) :
    (g.insert a).linked x y = g.linked x y := by
  unfold insert linked
  split <;> rfl

/-- A new node is put last, and one that is there already stays where it is. -/
theorem Sound.nodes_insert {g : LinkGraph} (hg : g.Sound) (a : Address) :
    (g.insert a).nodes.toList =
      if a ∈ g.nodes.toList then g.nodes.toList else g.nodes.toList ++ [a] := by
  have hknown : g.neighbours.contains a = true ↔ a ∈ g.nodes.toList := by
    rw [← hg.known, Std.HashMap.mem_iff_contains]
  unfold insert
  simp only [hknown]
  split
  · rfl
  · exact Array.toList_push ..

/-- Inserting an account makes it a node, and no other account. -/
theorem Sound.mem_nodes_insert {g : LinkGraph} (hg : g.Sound) {a x : Address} :
    x ∈ (g.insert a).nodes.toList ↔ x ∈ g.nodes.toList ∨ x = a := by
  rw [hg.nodes_insert]
  split
  · next ha =>
    constructor
    · exact .inl
    · rintro (hx | rfl)
      · exact hx
      · exact ha
  · simp

/-- After a node is inserted neighbours and links still agree. -/
theorem Sound.insert {g : LinkGraph} (hg : g.Sound) (a : Address) : (g.insert a).Sound where
  known x := by
    rw [hg.mem_nodes_insert]
    unfold LinkGraph.insert
    split
    · next hknown =>
      constructor
      · exact fun hx => .inl ((hg.known x).1 hx)
      · rintro (hx | rfl)
        · exact (hg.known x).2 hx
        · exact Std.HashMap.mem_iff_contains.2 hknown
    · rw [Std.HashMap.mem_insert, hg.known, beq_iff_eq, or_comm, eq_comm]
  nodes x y hy := by
    rw [neighboursOf_insert] at hy
    exact hg.mem_nodes_insert.2 (.inl (hg.nodes x y hy))
  symm x y hy := by
    rw [neighboursOf_insert] at hy ⊢
    exact hg.symm x y hy
  links x y hxy := by
    rw [linked_insert] at hxy
    rw [neighboursOf_insert]
    exact hg.links x y hxy

/-- Recording a neighbour puts it behind those of its node and leaves all other nodes alone. -/
theorem getD_addNeighbour (neighbours : Std.HashMap Address (Array Address)) (a b x : Address) :
    (addNeighbour neighbours a b).getD x #[] =
      if a = x then (neighbours.getD x #[]).push b else neighbours.getD x #[] := by
  unfold addNeighbour
  rw [Std.HashMap.getD_alter]
  by_cases hax : a = x
  · subst hax
    simp [Std.HashMap.getD_eq_getD_getElem?]
  · simp [hax]

/-- Two nodes not linked before, with the link that is put between them. -/
def joined (g : LinkGraph) (a b : Address) : LinkGraph :=
  { g with
    neighbours := addNeighbour (addNeighbour g.neighbours a b) b a
    links := g.links.insert (pair a b) }

/-- Joining two nodes makes each a neighbour of the other, and keeps all other neighbours. -/
theorem mem_neighboursOf_joined {g : LinkGraph} {a b x y : Address} (hab : a ≠ b) :
    y ∈ (g.joined a b).neighboursOf x ↔
      y ∈ g.neighboursOf x ∨ (x = a ∧ y = b) ∨ (x = b ∧ y = a) := by
  unfold neighboursOf joined
  rw [getD_addNeighbour, getD_addNeighbour]
  by_cases hbx : b = x
  · subst hbx
    simp [hab, Ne.symm hab]
  · by_cases hax : a = x
    · subst hax
      simp [hbx, Ne.symm hbx]
    · simp [hbx, hax, Ne.symm hbx, Ne.symm hax]

/-- Joining two nodes links them, and keeps all other links. -/
theorem linked_joined {g : LinkGraph} {a b x y : Address} :
    (g.joined a b).linked x y ↔ ((x = a ∧ y = b) ∨ (x = b ∧ y = a)) ∨ g.linked x y := by
  unfold linked joined
  rw [Std.HashSet.contains_insert, Bool.or_eq_true, beq_iff_eq, pair_eq_pair_iff]

/-- After two nodes are joined neighbours and links still agree. -/
theorem Sound.joined {g : LinkGraph} (hg : g.Sound) {a b : Address} (hab : a ≠ b)
    (ha : a ∈ g.nodes.toList) (hb : b ∈ g.nodes.toList) : (g.joined a b).Sound where
  known x := by
    unfold LinkGraph.joined addNeighbour
    rw [Std.HashMap.mem_alter, Std.HashMap.mem_alter]
    by_cases hbx : b = x
    · subst hbx
      simpa using hb
    · by_cases hax : a = x
      · subst hax
        simpa [hbx] using ha
      · simpa [hbx, hax] using hg.known x
  nodes x y hy := by
    rcases (mem_neighboursOf_joined hab).1 hy with hy | ⟨_, rfl⟩ | ⟨_, rfl⟩
    · exact hg.nodes x y hy
    · exact hb
    · exact ha
  symm x y hy := by
    apply (mem_neighboursOf_joined hab).2
    rcases (mem_neighboursOf_joined hab).1 hy with hy | ⟨rfl, rfl⟩ | ⟨rfl, rfl⟩
    · exact .inl (hg.symm x y hy)
    · exact .inr (.inr ⟨rfl, rfl⟩)
    · exact .inr (.inl ⟨rfl, rfl⟩)
  links x y hxy := by
    apply (mem_neighboursOf_joined hab).2
    rcases linked_joined.1 hxy with hxy | hxy
    · exact .inr hxy
    · exact .inl (hg.links x y hxy)

/-- A link adds the nodes that inserting both accounts adds. -/
theorem nodes_link (g : LinkGraph) (a b : Address) :
    (g.link a b).nodes = ((g.insert a).insert b).nodes := by
  unfold link
  dsimp only
  split
  · rfl
  · rfl

/-- Linking two nodes makes them neighbours, if they are two, and keeps all other neighbours. -/
theorem Sound.link {g : LinkGraph} (hg : g.Sound) (a b : Address) :
    (g.link a b).Sound ∧ (∀ x y, y ∈ g.neighboursOf x → y ∈ (g.link a b).neighboursOf x) ∧
      (a = b ∨ b ∈ (g.link a b).neighboursOf a) := by
  have hsound := (hg.insert a).insert b
  have hsame (x : Address) : ((g.insert a).insert b).neighboursOf x = g.neighboursOf x := by simp
  unfold LinkGraph.link
  dsimp only
  split
  · next hold =>
    refine ⟨hsound, fun x y hy => (hsame x).symm ▸ hy, ?_⟩
    rcases Bool.or_eq_true _ _ ▸ hold with hab | hlinked
    · exact .inl (of_decide_eq_true hab)
    · exact .inr (hsound.links a b hlinked)
  · next hnew =>
    have hab : a ≠ b := fun hab => hnew (by simp [hab])
    have ha : a ∈ ((g.insert a).insert b).nodes.toList :=
      (hg.insert a).mem_nodes_insert.2 (.inl (hg.mem_nodes_insert.2 (.inr rfl)))
    have hb : b ∈ ((g.insert a).insert b).nodes.toList :=
      (hg.insert a).mem_nodes_insert.2 (.inr rfl)
    refine ⟨hsound.joined hab ha hb, fun x y hy => ?_, .inr ?_⟩
    · exact (mem_neighboursOf_joined hab).2 (.inl ((hsame x).symm ▸ hy))
    · exact (mem_neighboursOf_joined hab).2 (.inr (.inl ⟨rfl, rfl⟩))

/-! ## The graph of a batch -/

/-- Neighbours stay neighbours when links are added. -/
def Extends (g h : LinkGraph) : Prop := ∀ x y, y ∈ g.neighboursOf x → y ∈ h.neighboursOf x

/-- Two accounts are one or are linked. -/
def Touch (g : LinkGraph) (a b : Address) : Prop := a = b ∨ b ∈ g.neighboursOf a

/-- Accounts that touch still do when links are added. -/
theorem Touch.extends {g h : LinkGraph} {a b : Address} (hab : g.Touch a b) (hgh : g.Extends h) :
    h.Touch a b :=
  hab.imp_right (hgh a b)

/-- A chain of links keeps neighbours and links in agreement and all neighbours neighbours, and
links every account with the next one. -/
theorem Sound.linkChain {g : LinkGraph} (hg : g.Sound) (as : List Address) :
    (g.linkChain as).Sound ∧ g.Extends (g.linkChain as) ∧
      as.IsChain (g.linkChain as).Touch := by
  fun_induction LinkGraph.linkChain g as with
  | case1 g => exact ⟨hg, fun _ _ hy => hy, List.isChain_nil⟩
  | case2 g a =>
      refine ⟨hg.insert a, fun x y hy => ?_, List.isChain_singleton a⟩
      rwa [neighboursOf_insert]
  | case3 g a b rest ih =>
      rcases hg.link a b with ⟨hlink, hold, hab⟩
      rcases ih hlink with ⟨hchain, hextends, hrest⟩
      refine ⟨hchain, fun x y hy => hextends x y (hold x y hy), ?_⟩
      exact List.isChain_cons_cons.2 ⟨Touch.extends hab hextends, hrest⟩

/-- The chains of all transactions of a batch keep neighbours and links in agreement and all
neighbours neighbours, and each links every account of its transaction with the next one. -/
theorem Sound.foldl_linkChain {g : LinkGraph} (hg : g.Sound) (b : Batch) :
    let h := b.foldl (fun g tx => g.linkChain tx.senders) g
    h.Sound ∧ g.Extends h ∧ ∀ tx ∈ b, tx.senders.IsChain h.Touch := by
  induction b generalizing g with
  | nil => exact ⟨hg, fun _ _ hy => hy, fun _ htx => by cases htx⟩
  | cons tx b ih =>
      rcases hg.linkChain tx.senders with ⟨hsound, hold, hchain⟩
      rcases ih hsound with ⟨hsound', hold', hchains⟩
      refine ⟨hsound', fun x y hy => hold' x y (hold x y hy), ?_⟩
      intro tx' htx'
      rcases List.mem_cons.1 htx' with rfl | htx'
      · exact hchain.imp fun _ _ htouch => htouch.extends hold'
      · exact hchains tx' htx'

/-- In the graph of a batch the accounts of every transaction form a chain of links. -/
theorem sound_ofBatch (b : Batch) :
    (ofBatch b).Sound ∧ ∀ tx ∈ b, tx.senders.IsChain (ofBatch b).Touch := by
  rcases sound_empty.foldl_linkChain b with ⟨hsound, _, hchains⟩
  exact ⟨hsound, hchains⟩

/-! ## The search -/

/-- The state of the search for a component: what waits on the stack is labelled as part of it, and
the neighbours of every other labelled node are labelled like that node. -/
structure Flooding (g : LinkGraph) (label : Nat) (labels : Labels) (stack : List Address) :
    Prop where
  waits : ∀ a ∈ stack, labels[a]? = some label
  closed : ∀ a l, labels[a]? = some l → a ∉ stack → ∀ b ∈ g.neighboursOf a, labels[b]? = some l

/-- The number of nodes without a label. -/
def unlabelled (g : LinkGraph) (labels : Labels) : Nat :=
  g.nodes.toList.countP fun a => !labels.contains a

theorem getElem?_insert (labels : Labels) (label : Nat) (a x : Address) :
    (labels.insert a label)[x]? = if a = x then some label else labels[x]? := by
  rw [Std.ExtTreeMap.getElem?_insert]
  by_cases hax : a = x
  · simp [hax]
  · simp [hax]

theorem contains_eq_false_iff {labels : Labels} {a : Address} :
    labels.contains a = false ↔ labels[a]? = none := by
  rw [Std.ExtTreeMap.contains_eq_isSome_getElem?, Option.isSome_eq_false_iff,
    Option.isNone_iff_eq_none]

theorem contains_of_getElem? {labels : Labels} {a : Address} {l : Nat} (h : labels[a]? = some l) :
    labels.contains a := by
  rw [Std.ExtTreeMap.contains_eq_isSome_getElem?, h]
  rfl

/-- Labelling a node leaves one node less without a label. -/
theorem unlabelled_insert_lt {g : LinkGraph} {labels : Labels} {a : Address} (label : Nat)
    (ha : a ∈ g.nodes.toList) (hnew : labels[a]? = none) :
    g.unlabelled (labels.insert a label) < g.unlabelled labels := by
  unfold unlabelled
  rcases List.append_of_mem ha with ⟨before, after, hsplit⟩
  have hle (xs : List Address) : (xs.countP fun x => !(labels.insert a label).contains x) ≤
      xs.countP fun x => !labels.contains x := by
    apply List.countP_mono_left
    intro x _ hx
    rw [Bool.not_eq_true', contains_eq_false_iff, getElem?_insert] at hx
    rw [Bool.not_eq_true', contains_eq_false_iff]
    split at hx
    · cases hx
    · exact hx
  have hself : (labels.insert a label).contains a = true :=
    contains_of_getElem? (by rw [getElem?_insert, if_pos rfl])
  have hout : labels.contains a = false := contains_eq_false_iff.2 hnew
  have hbefore := hle before
  have hafter := hle after
  simp only [hsplit, List.countP_append, List.countP_cons, hself, hout]
  simp only [Bool.not_true, Bool.not_false, if_true]
  simp only [Bool.false_eq_true, if_false]
  omega

variable {g : LinkGraph} {label : Nat} {labels : Labels} {stack : List Address} {a : Address}

/-- A labelled neighbour of a node on the stack is labelled like it. -/
theorem Flooding.eq_label (h : Flooding g label labels (a :: stack)) (hg : g.Sound) {b : Address}
    (hb : b ∈ g.neighboursOf a) {l : Nat} (hl : labels[b]? = some l) : l = label := by
  have ha : labels[a]? = some label := h.waits a List.mem_cons_self
  by_cases hwaits : b ∈ a :: stack
  · exact Option.some.inj (hl.symm.trans (h.waits b hwaits))
  · exact Option.some.inj ((h.closed b l hl hwaits a (hg.symm a b hb)).symm.trans ha)

/-- Visiting a neighbour of the node at hand labels it, keeps all labels, and puts it on the stack
only if it leaves one node less without a label. -/
theorem Flooding.visit (h : Flooding g label labels (a :: stack)) (hg : g.Sound) {b : Address}
    (hb : b ∈ g.neighboursOf a) :
    let s := visit label (labels, stack) b
    Flooding g label s.1 (a :: s.2) ∧ s.1[b]? = some label ∧
      (∀ (x : Address) l, labels[x]? = some l → s.1[x]? = some l) ∧
      s.2.length + g.unlabelled s.1 ≤ stack.length + g.unlabelled labels := by
  unfold LinkGraph.visit
  cases hl : labels[b]? with
  | some l =>
      simp only [contains_of_getElem? hl, if_true]
      exact ⟨h, by rw [hl, h.eq_label hg hb hl], fun _ _ hx => hx, Nat.le_refl _⟩
  | none =>
      simp only [contains_eq_false_iff.2 hl, Bool.false_eq_true, if_false]
      have hkept (x : Address) (l : Nat) (hx : labels[x]? = some l) :
          (labels.insert b label)[x]? = some l := by
        rw [getElem?_insert, if_neg ?_, hx]
        rintro rfl
        rw [hl] at hx
        cases hx
      have hself : (labels.insert b label)[b]? = some label := by
        rw [getElem?_insert, if_pos rfl]
      refine ⟨⟨?_, ?_⟩, hself, hkept, ?_⟩
      · intro x hx
        rcases List.mem_cons.1 hx with rfl | hx
        · exact hkept x label (h.waits x List.mem_cons_self)
        · rcases List.mem_cons.1 hx with rfl | hx
          · exact hself
          · exact hkept x label (h.waits x (List.mem_cons_of_mem _ hx))
      · intro x l hx hout y hy
        have hbx : b ≠ x := by
          rintro rfl
          exact hout (by simp)
        rw [getElem?_insert, if_neg hbx] at hx
        refine hkept y l (h.closed x l hx (fun hmem => hout ?_) y hy)
        rcases List.mem_cons.1 hmem with rfl | hmem
        · exact List.mem_cons_self
        · exact List.mem_cons_of_mem _ (List.mem_cons_of_mem _ hmem)
      · have hless := unlabelled_insert_lt label (hg.nodes a b hb) hl
        rw [List.length_cons]
        omega

/-- Visiting several neighbours of the node at hand labels them, keeps all labels, and puts no more
on the stack than it leaves fewer nodes without a label. -/
theorem Flooding.foldl_visit (h : Flooding g label labels (a :: stack)) (hg : g.Sound)
    {bs : List Address} (hbs : ∀ b ∈ bs, b ∈ g.neighboursOf a) :
    let s := bs.foldl (LinkGraph.visit label) (labels, stack)
    Flooding g label s.1 (a :: s.2) ∧ (∀ b ∈ bs, s.1[b]? = some label) ∧
      (∀ (x : Address) l, labels[x]? = some l → s.1[x]? = some l) ∧
      s.2.length + g.unlabelled s.1 ≤ stack.length + g.unlabelled labels := by
  induction bs generalizing labels stack with
  | nil => exact ⟨h, fun _ hb => absurd hb List.not_mem_nil, fun _ _ hx => hx, Nat.le_refl _⟩
  | cons b bs ih =>
      rcases h.visit hg (hbs b List.mem_cons_self) with ⟨hflood, hself, hkept, hsize⟩
      obtain ⟨hflood', hlabelled, hkept', hsize'⟩ :=
        ih hflood fun b' hb' => hbs b' (List.mem_cons_of_mem _ hb')
      refine ⟨hflood', ?_, fun x l hx => hkept' x l (hkept x l hx), Nat.le_trans hsize' hsize⟩
      intro b' hb'
      rcases List.mem_cons.1 hb' with rfl | hb'
      · exact hkept' b' label hself
      · exact hlabelled b' hb'

/-- Once all neighbours of a node have been visited, the node may leave the stack. -/
theorem Flooding.pop (h : Flooding g label labels (a :: stack))
    (hlabelled : ∀ b ∈ g.neighboursOf a, labels[b]? = some label) :
    Flooding g label labels stack where
  waits x hx := h.waits x (List.mem_cons_of_mem _ hx)
  closed x l hx hout b hb := by
    by_cases hxa : x = a
    · subst hxa
      rw [hlabelled b hb, ← hx, h.waits x List.mem_cons_self]
    · exact h.closed x l hx (by simp [hxa, hout]) b hb

/-- A search with as many steps left as there are nodes on the stack and nodes without a label ends
with an empty stack. -/
theorem Flooding.flood (h : Flooding g label labels stack) (hg : g.Sound) {n : Nat}
    (hn : stack.length + g.unlabelled labels ≤ n) :
    Flooding g label (g.flood label n (labels, stack)) [] := by
  induction n generalizing labels stack with
  | zero =>
      have hnil : stack = [] := List.eq_nil_of_length_eq_zero (by omega)
      subst hnil
      exact h
  | succ n ih =>
      cases stack with
      | nil => exact h
      | cons a stack =>
          obtain ⟨hflood, hlabelled, _, hsize⟩ := h.foldl_visit hg fun _ hb => hb
          rw [List.length_cons] at hn
          have hrest := ih (hflood.pop hlabelled) (by omega)
          rw [LinkGraph.flood, ← Array.foldl_toList]
          exact hrest

/-! ## Components -/

/-- Between two searches the neighbours of every labelled node are labelled like it. -/
def Closed (g : LinkGraph) (labels : Labels) : Prop :=
  ∀ a l, labels[a]? = some l → ∀ b ∈ g.neighboursOf a, labels[b]? = some l

/-- Between two searches a node without a label may start the next one. -/
theorem Closed.flooding (h : g.Closed labels) (hnew : labels[a]? = none) (label : Nat) :
    Flooding g label (labels.insert a label) [a] where
  waits x hx := by rw [getElem?_insert, if_pos (List.mem_singleton.1 hx).symm]
  closed x l hx hout b hb := by
    rw [getElem?_insert, if_neg (fun hax => hout (by simp [hax]))] at hx
    have hb' := h x l hx b hb
    rw [getElem?_insert, if_neg ?_, hb']
    rintro rfl
    rw [hnew] at hb'
    cases hb'

/-- The number of nodes is enough for a search: it ends with an empty stack. -/
theorem Closed.flood (h : g.Closed labels) (hg : g.Sound) (ha : a ∈ g.nodes.toList)
    (hnew : labels[a]? = none) (label : Nat) :
    Flooding g label (g.flood label g.nodeCount (labels.insert a label, [a])) [] := by
  have hless := unlabelled_insert_lt label ha hnew
  have hall : g.unlabelled labels ≤ g.nodeCount := by
    unfold unlabelled nodeCount
    rw [← Array.length_toList]
    exact List.countP_le_length
  exact (h.flooding hnew label).flood hg (by rw [List.length_singleton]; omega)

/-- After a search the neighbours of every labelled node are labelled like it. -/
theorem Closed.labelFrom {found : Labels × Nat} (h : g.Closed found.1) (hg : g.Sound)
    (ha : a ∈ g.nodes.toList) : g.Closed (g.labelFrom found a).1 := by
  unfold LinkGraph.labelFrom
  split
  · exact h
  · next hnew =>
    have hdone := h.flood hg ha (contains_eq_false_iff.1 (Bool.eq_false_iff.2 hnew)) found.2
    exact fun x l hx b hb => hdone.closed x l hx List.not_mem_nil b hb

/-- After any number of searches the neighbours of every labelled node are labelled like it. -/
theorem Closed.foldl_labelFrom {found : Labels × Nat} (h : g.Closed found.1) (hg : g.Sound)
    {as : List Address} (has : ∀ a ∈ as, a ∈ g.nodes.toList) :
    g.Closed (as.foldl g.labelFrom found).1 := by
  induction as generalizing found with
  | nil => exact h
  | cons a as ih =>
      apply ih (h.labelFrom hg (has a List.mem_cons_self))
      intro a' ha'
      exact has a' (List.mem_cons_of_mem _ ha')

theorem closed_empty (g : LinkGraph) : g.Closed ∅ := fun a l ha => by simp at ha

/-- In the end the neighbours of every labelled node are labelled like it. -/
theorem closed_components (hg : g.Sound) : g.Closed g.components := by
  unfold components
  rw [← Array.foldl_toList]
  exact Closed.foldl_labelFrom g.closed_empty hg fun _ ha => ha

/-- Linked nodes belong to the same component. -/
theorem components_eq_of_mem_neighboursOf (hg : g.Sound) {b : Address}
    (hb : b ∈ g.neighboursOf a) : g.components[a]? = g.components[b]? := by
  cases ha : g.components[a]? with
  | some l => exact (closed_components hg a l ha b hb).symm
  | none =>
      cases hl : g.components[b]? with
      | none => rfl
      | some l =>
          have hback := closed_components hg b l hl a (hg.symm a b hb)
          rw [ha] at hback
          cases hback

/-- All accounts of a transaction belong to the component of the account of its main action. -/
theorem components_ofBatch_eq {b : Batch} {tx : Transaction} (htx : tx ∈ b) {s : Address}
    (hs : s ∈ tx.senders) :
    (ofBatch b).components[tx.main.sender]? = (ofBatch b).components[s]? := by
  rcases sound_ofBatch b with ⟨hsound, hchains⟩
  have hchain : tx.senders.IsChain fun a c =>
      (ofBatch b).components[a]? = (ofBatch b).components[c]? := by
    refine (hchains tx htx).imp ?_
    rintro a c (rfl | hc)
    · rfl
    · exact components_eq_of_mem_neighboursOf hsound hc
  have : IsTrans Address fun a c =>
      (ofBatch b).components[a]? = (ofBatch b).components[c]? := ⟨fun _ _ _ => Eq.trans⟩
  rcases List.mem_cons.1 hs with rfl | hs
  · rfl
  · exact List.rel_of_pairwise_cons hchain.pairwise hs

end LinkGraph

end BatchOrder
