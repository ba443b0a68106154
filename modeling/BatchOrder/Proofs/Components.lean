import BatchOrder.Proofs.Connectivity
import BatchOrder.Proofs.KeepFirst

/-!
# Components of every graph

A graph arises from the one without nodes by adding nodes and links, in any order, with repetitions
and with links from a node to itself.  Its nodes are the accounts that were named, in the order in
which they first were, and the neighbours of a node are what it is linked with.

A search takes a node that waits and lets those of its neighbours wait that have no label yet, and
gives them one.  Every turn either labels a node or leaves one node less waiting, so there is no
search without end.  Which node is taken, the one that has waited longest, as a queue has it, or the
last one, as a stack has it, makes no difference: in the end, what is labelled is what paths of
links connect with the node that the search started from.

Main results:

- Theorem `nodes_run`: the nodes in the order in which they were added.
- Theorem `mem_neighboursOf_run_iff`: neighbours are what is linked.
- Theorem `Searching.turn`: what a turn preserves, and what it uses up.
- Theorem `endsIn_flood`: every search ends, and in the same labels whatever nodes it takes.
- Theorem `keepFirst_foldl_labelFrom`: components are numbered in the order of their first nodes.
- Theorem `run_finds_components`: the components of every graph.
-/

namespace BatchOrder

namespace LinkGraph

/-! ## Runs of changes -/

/-- What can be asked of a graph that may change it. -/
inductive Change where
  /-- Make an account a node. -/
  | insert (a : Address)
  /-- Make two accounts nodes and link them. -/
  | link (a b : Address)

/-- The accounts that a change names, in the order in which it makes them nodes. -/
def Change.named : Change → List Address
  | .insert a => [a]
  | .link a b => [a, b]

/-- The graph after a change. -/
def change (g : LinkGraph) : Change → LinkGraph
  | .insert a => g.insert a
  | .link a b => g.link a b

/-- What changes in a row make of the graph without nodes. -/
def run (changes : List Change) : LinkGraph := changes.foldl change ∅

theorem run_append_singleton (changes : List Change) (c : Change) :
    run (changes ++ [c]) = (run changes).change c :=
  List.foldl_concat ..

/-- What holds of the graph without nodes and is kept by every change holds of every graph. -/
theorem run_induction {p : LinkGraph → Prop} (hempty : p ∅)
    (hchange : ∀ g c, p g → p (g.change c)) (changes : List Change) : p (run changes) := by
  induction changes using List.reverseRecOn with
  | nil => exact hempty
  | append_singleton changes c ih =>
      rw [run_append_singleton]
      exact hchange _ c ih

/-- No change makes neighbours and links disagree. -/
theorem Sound.change {g : LinkGraph} (hg : g.Sound) (c : Change) : (g.change c).Sound :=
  match c with
  | .insert a => hg.insert a
  | .link a b => (hg.link a b).1

/-- Neighbours and links agree after every run. -/
theorem sound_run (changes : List Change) : (run changes).Sound :=
  run_induction sound_empty (fun _ c hg => hg.change c) changes

/-! ## Nodes -/

/-- If the nodes are what was named, each once and in order, they are so with one account more. -/
theorem Sound.nodes_insert_keepFirst {g : LinkGraph} (hg : g.Sound) {as : List Address}
    (has : g.nodes.toList = keepFirst id as) (a : Address) :
    (g.insert a).nodes.toList = keepFirst id (as ++ [a]) := by
  rw [hg.nodes_insert, keepFirst_append_singleton, has]
  simp only [mem_keepFirst_id]

/-- The nodes of a graph are the accounts that were named, in the order in which they first were. -/
theorem nodes_run (changes : List Change) :
    (run changes).nodes.toList = keepFirst id (changes.flatMap Change.named) := by
  induction changes using List.reverseRecOn with
  | nil => rfl
  | append_singleton changes c ih =>
      have hsound := sound_run changes
      rw [run_append_singleton, List.flatMap_append, List.flatMap_singleton]
      cases c with
      | insert a => exact hsound.nodes_insert_keepFirst ih a
      | link a b =>
          have hfirst := hsound.nodes_insert_keepFirst ih a
          have hboth := (hsound.insert a).nodes_insert_keepFirst hfirst b
          rw [List.append_assoc] at hboth
          exact (congrArg Array.toList (nodes_link ..)).trans hboth

/-! ## Links -/

/-- Neighbours are linked. -/
def Matched (g : LinkGraph) : Prop := ∀ x y, y ∈ g.neighboursOf x → g.linked x y

/-- A node that is added leaves all neighbours linked. -/
theorem Matched.insert {g : LinkGraph} (hg : g.Matched) (a : Address) : (g.insert a).Matched := by
  intro x y hy
  rw [neighboursOf_insert] at hy
  rw [linked_insert]
  exact hg x y hy

/-- A link that is added leaves all neighbours linked. -/
theorem Matched.link {g : LinkGraph} (hg : g.Matched) (a b : Address) : (g.link a b).Matched := by
  have hinserted := (hg.insert a).insert b
  unfold LinkGraph.link
  dsimp only
  split
  · exact hinserted
  · next hnew =>
    have hab : a ≠ b := fun hab => hnew (by simp [hab])
    intro x y hy
    apply linked_joined.2
    exact ((mem_neighboursOf_joined hab).1 hy).symm.imp_right (hinserted x y)

/-- Every change leaves neighbours linked. -/
theorem Matched.change {g : LinkGraph} (hg : g.Matched) (c : Change) : (g.change c).Matched :=
  match c with
  | .insert a => hg.insert a
  | .link a b => hg.link a b

theorem matched_empty : Matched ∅ := fun x y hy => by simp [neighboursOf_empty] at hy

/-- Neighbours are linked after every run. -/
theorem matched_run (changes : List Change) : (run changes).Matched :=
  run_induction matched_empty (fun _ c hg => hg.change c) changes

/-- The neighbours of a node are what it is linked with. -/
theorem mem_neighboursOf_run_iff {changes : List Change} {a b : Address} :
    b ∈ (run changes).neighboursOf a ↔ (run changes).linked a b :=
  ⟨matched_run changes a b, (sound_run changes).links a b⟩

/-! ## Turns of a search -/

variable {g : LinkGraph} {label : Nat} {labels begun : Labels} {start a : Address}

/-- Visit the neighbours of a node: those that have no label get it and wait. -/
def visitAround (g : LinkGraph) (label : Nat) (a : Address) (s : Labels × List Address) :
    Labels × List Address :=
  (g.neighboursOf a).foldl (visit label) s

/-- A turn of a search, on the labels given so far and the nodes that wait: one of these, whichever
it is, is taken and its neighbours are visited.  Nodes may wait in any order. -/
def Turn (g : LinkGraph) (label : Nat) (s t : Labels × List Address) : Prop :=
  ∃ a rest, s.2.Perm (a :: rest) ∧ t.1 = (g.visitAround label a (s.1, rest)).1 ∧
    t.2.Perm (g.visitAround label a (s.1, rest)).2

/-- Visit a node in a search whose nodes wait in line: give it a label and put it last, unless it
has a label. -/
def visitLast (label : Nat) (search : Labels × List Address) (a : Address) :
    Labels × List Address :=
  if search.1.contains a then search else (search.1.insert a label, search.2 ++ [a])

/-- Wherever nodes are put to wait, they get the same labels. -/
theorem foldl_visitLast (label : Nat) (as : List Address) {s t : Labels × List Address}
    (hlabels : s.1 = t.1) (hwaiting : s.2.Perm t.2) :
    (as.foldl (visitLast label) s).1 = (as.foldl (visit label) t).1 ∧
      (as.foldl (visitLast label) s).2.Perm (as.foldl (visit label) t).2 := by
  induction as generalizing s t with
  | nil => exact ⟨hlabels, hwaiting⟩
  | cons a as ih =>
      rw [List.foldl_cons, List.foldl_cons]
      unfold visitLast visit
      rw [hlabels]
      split
      · exact ih hlabels hwaiting
      · exact ih rfl ((List.perm_append_singleton a s.2).trans (hwaiting.cons a))

/-- To take the node that has waited longest is a turn. -/
theorem turn_first (g : LinkGraph) (label : Nat) (labels : Labels) (a : Address)
    (queue : List Address) :
    Turn g label (labels, a :: queue)
      ((g.neighboursOf a).foldl (visitLast label) (labels, queue)) :=
  ⟨a, queue, .rfl, foldl_visitLast label _ rfl .rfl⟩

/-- From a state on, steps can only be taken so often, and whichever are taken, they lead to the
same end. -/
structure EndsIn {σ : Type} (step : σ → σ → Prop) (s final : σ) : Prop where
  ends : Acc (fun t u => step u t) s
  same : ∀ t, Relation.ReflTransGen step s t → (∀ u, ¬ step t u) → t = final

/-- The state of a search that began with given labels, its first node among them. -/
structure Searching (g : LinkGraph) (label : Nat) (start : Address) (begun : Labels)
    (s : Labels × List Address) : Prop where
  flooding : Flooding g label s.1 s.2
  spread : Spread g label start begun s

/-- The order in which nodes wait does not matter to the closure of what is labelled. -/
theorem Flooding.perm {stack stack' : List Address} (h : Flooding g label labels stack)
    (hperm : stack.Perm stack') : Flooding g label labels stack' where
  waits a ha := h.waits a (hperm.mem_iff.2 ha)
  closed a l ha hout := h.closed a l ha fun hin => hout (hperm.mem_iff.1 hin)

/-- The order in which nodes wait does not matter to what is connected with the start. -/
theorem Spread.perm {stack stack' : List Address} (h : Spread g label start begun (labels, stack))
    (hperm : stack.Perm stack') : Spread g label start begun (labels, stack') where
  keeps := h.keeps
  adds := h.adds
  waits a ha := h.waits a (hperm.mem_iff.2 ha)

/-- The order in which nodes wait does not matter to the state of a search. -/
theorem Searching.perm {stack stack' : List Address}
    (h : Searching g label start begun (labels, stack)) (hperm : stack.Perm stack') :
    Searching g label start begun (labels, stack') :=
  ⟨h.flooding.perm hperm, h.spread.perm hperm⟩

/-- A turn of a search leads to a state of the search with fewer nodes that wait or have no
label. -/
theorem Searching.turn {s t : Labels × List Address} (h : Searching g label start begun s)
    (hg : g.Sound) (hturn : Turn g label s t) :
    Searching g label start begun t ∧
      t.2.length + g.unlabelled t.1 < s.2.length + g.unlabelled s.1 := by
  rcases s with ⟨labels, waiting⟩
  rcases t with ⟨labels', waiting'⟩
  rcases hturn with ⟨a, rest, htaken, hlabels, hwaiting⟩
  dsimp only at htaken hlabels hwaiting ⊢
  subst hlabels
  have hready := h.perm htaken
  have hrest : Spread g label start begun (labels, rest) :=
    ⟨h.spread.keeps, h.spread.adds, fun x hx => hready.spread.waits x (List.mem_cons_of_mem _ hx)⟩
  have hnear (b : Address) (hb : b ∈ g.neighboursOf a) : g.Connected start b :=
    (hready.spread.waits a List.mem_cons_self).tail hb
  obtain ⟨hflood, hlabelled, _, hsize⟩ := hready.flooding.foldl_visit hg fun _ hb => hb
  have hvisited : Searching g label start begun (g.visitAround label a (labels, rest)) :=
    ⟨hflood.pop hlabelled, hrest.foldl_visit hnear⟩
  refine ⟨hvisited.perm hwaiting.symm, ?_⟩
  calc waiting'.length + g.unlabelled (g.visitAround label a (labels, rest)).1
      = (g.visitAround label a (labels, rest)).2.length +
          g.unlabelled (g.visitAround label a (labels, rest)).1 := by rw [hwaiting.length_eq]
    _ ≤ rest.length + g.unlabelled labels := hsize
    _ < waiting.length + g.unlabelled labels := by
        rw [htaken.length_eq, List.length_cons]
        omega

/-- What holds of the state of a search holds after any number of turns. -/
theorem Searching.reaches {s t : Labels × List Address} (h : Searching g label start begun s)
    (hg : g.Sound) (hreach : Relation.ReflTransGen (Turn g label) s t) :
    Searching g label start begun t := by
  induction hreach with
  | refl => exact h
  | tail _ hstep ih => exact (ih.turn hg hstep).1

/-- As every turn uses something up, there is no search without end. -/
theorem Searching.acc {s : Labels × List Address} (h : Searching g label start begun s)
    (hg : g.Sound) : Acc (fun t u => Turn g label u t) s := by
  induction hn : s.2.length + g.unlabelled s.1 using Nat.strongRecOn generalizing s with
  | ind n ih =>
      refine Acc.intro s fun t hturn => ?_
      rcases h.turn hg hturn with ⟨ht, hless⟩
      exact ih _ (hn ▸ hless) ht rfl

/-- While a node waits, there is a turn. -/
theorem waiting_eq_nil {s : Labels × List Address} (hlast : ∀ t, ¬ Turn g label s t) :
    s.2 = [] := by
  cases hwaiting : s.2 with
  | nil => rfl
  | cons a rest =>
      exact absurd ⟨a, rest, by rw [hwaiting], rfl, .rfl⟩
        (hlast (g.visitAround label a (s.1, rest)))

/-- When no node waits, the search has labelled what is connected with its first node. -/
theorem Searching.getElem?_eq_some_iff (h : Searching g label start begun (labels, []))
    (hstart : begun[start]? = some label) {x : Address} {l : Nat} :
    labels[x]? = some l ↔ begun[x]? = some l ∨ (l = label ∧ g.Connected start x) := by
  constructor
  · exact h.spread.adds x l
  · rintro (hx | ⟨rfl, hpath⟩)
    · exact h.spread.keeps x l hx
    · induction hpath with
      | refl => exact h.spread.keeps start _ hstart
      | tail _ hstep ih => exact h.flooding.closed _ _ ih List.not_mem_nil _ hstep

/-- A search ends, and whatever nodes it takes, it ends with the labels that the search with a stack
gives. -/
theorem endsIn_flood (hg : g.Sound) (hclosed : g.Closed labels) (ha : a ∈ g.nodes.toList)
    (hnew : labels[a]? = none) (label : Nat) :
    EndsIn (Turn g label) (labels.insert a label, [a])
      (g.flood label g.nodeCount (labels.insert a label, [a]), []) := by
  have hself : (labels.insert a label)[a]? = some label := by
    rw [getElem?_insert, if_pos rfl]
  have hspread := spread_insert g label labels a
  have hbegun : Searching g label a (labels.insert a label) (labels.insert a label, [a]) :=
    ⟨hclosed.flooding hnew label, hspread⟩
  have hdone : Searching g label a (labels.insert a label)
      (g.flood label g.nodeCount (labels.insert a label, [a]), []) :=
    ⟨hclosed.flood hg ha hnew label, hspread.flood _⟩
  refine ⟨hbegun.acc hg, fun t hreach hlast => ?_⟩
  have hend := hbegun.reaches hg hreach
  rcases t with ⟨labels', waiting⟩
  rcases waiting_eq_nil hlast with rfl
  have hlabels : labels' = g.flood label g.nodeCount (labels.insert a label, [a]) := by
    apply Std.ExtTreeMap.ext_getElem?
    intro x
    apply Option.ext
    intro l
    rw [hend.getElem?_eq_some_iff hself, hdone.getElem?_eq_some_iff hself]
  rw [hlabels]

/-! ## Numbers of components -/

/-- Paths of links lead from nodes to nodes. -/
theorem Sound.mem_nodes_of_connected (hg : g.Sound) {b : Address} (hab : g.Connected a b)
    (ha : a ∈ g.nodes.toList) : b ∈ g.nodes.toList := by
  induction hab with
  | refl => exact ha
  | tail _ hstep _ => exact hg.nodes _ _ hstep

/-- If only nodes have labels, that is so after the next search. -/
theorem mem_nodes_of_labelFrom (hg : g.Sound) (ha : a ∈ g.nodes.toList) {found : Labels × Nat}
    (hfound : ∀ (x : Address) l, found.1[x]? = some l → x ∈ g.nodes.toList) {x : Address} {l : Nat}
    (hx : (g.labelFrom found a).1[x]? = some l) : x ∈ g.nodes.toList := by
  unfold LinkGraph.labelFrom at hx
  split at hx
  · exact hfound x l hx
  · next hnew =>
    have hnone := contains_eq_false_iff.1 (Bool.eq_false_iff.2 hnew)
    rcases (spread_labelFrom hnone).adds x l hx with hx | ⟨_, hpath⟩
    · exact hfound x l hx
    · exact hg.mem_nodes_of_connected hpath ha

/-- Only nodes belong to components. -/
theorem mem_nodes_of_components (hg : g.Sound) {x : Address} {l : Nat}
    (hx : g.components[x]? = some l) : x ∈ g.nodes.toList := by
  have hfold (as : List Address) (has : ∀ a ∈ as, a ∈ g.nodes.toList) (found : Labels × Nat)
      (hfound : ∀ (x : Address) l, found.1[x]? = some l → x ∈ g.nodes.toList) (x : Address)
      (l : Nat) (hx : (as.foldl g.labelFrom found).1[x]? = some l) : x ∈ g.nodes.toList := by
    induction as generalizing found with
    | nil => exact hfound x l hx
    | cons a as ih =>
        rcases List.forall_mem_cons.1 has with ⟨ha, has'⟩
        exact ih has' _ (fun y k hy => mem_nodes_of_labelFrom hg ha hfound hy) hx
  unfold components at hx
  rw [← Array.foldl_toList] at hx
  exact hfold _ (fun _ ha => ha) _ (fun x l hx => by simp at hx) x l hx

/-- If the numbers that are met along a list are those below `n`, in order, then one more element
adds its number, unless this is one of them. -/
theorem keepFirst_filterMap_append_singleton {α : Type} {f : α → Option Nat} {xs : List α} {n : Nat}
    (hmet : keepFirst id (xs.filterMap f) = List.range n) {x : α} {k : Nat} (hx : f x = some k) :
    keepFirst id ((xs ++ [x]).filterMap f) =
      if k < n then List.range n else List.range n ++ [k] := by
  have hmem : k ∈ xs.filterMap f ↔ k < n := by
    rw [← mem_keepFirst_id, hmet, List.mem_range]
  rw [List.filterMap_append, List.filterMap_cons_some hx, List.filterMap_nil,
    keepFirst_append_singleton, hmet]
  simp only [hmem]

/-- Along any nodes that the searches have started with, the numbers of the components are met in
order.  What a search labels stays labelled to the end. -/
theorem keepFirst_foldl_labelFrom (hg : g.Sound) {before after : List Address}
    (hnodes : g.nodes.toList = before ++ after) :
    keepFirst id (before.filterMap (g.components[·]?)) =
      List.range (before.foldl g.labelFrom (∅, 0)).2 := by
  induction before using List.reverseRecOn generalizing after with
  | nil => rfl
  | append_singleton before a ih =>
      have hsplit : g.nodes.toList = before ++ a :: after := by
        rw [hnodes, List.append_assoc]
        rfl
      have hmet := ih hsplit
      have hfinal (x : Address) (l : Nat)
          (hx : ((before ++ [a]).foldl g.labelFrom (∅, 0)).1[x]? = some l) :
          g.components[x]? = some l := by
        unfold components
        rw [← Array.foldl_toList, hnodes, List.foldl_append]
        exact (keeps_foldl_labelFrom g _ after).2 x l hx
      rw [List.foldl_concat] at hfinal ⊢
      have hnumbered := g.numbered_empty.foldl_labelFrom hg before
      generalize before.foldl g.labelFrom (∅, 0) = found at *
      cases hl : found.1[a]? with
      | some l =>
          rw [labelFrom_of_contains (contains_of_getElem? hl)] at hfinal ⊢
          rw [keepFirst_filterMap_append_singleton hmet (hfinal a l hl),
            if_pos (hnumbered.below a l hl)]
      | none =>
          rcases labelFrom_of_new hl with ⟨hself, hcount⟩
          rw [keepFirst_filterMap_append_singleton hmet (hfinal a found.2 hself), hcount,
            if_neg (Nat.lt_irrefl _), List.range_succ]

/-! ## The components of every graph -/

/-- What is wanted of the components of a graph. -/
structure FindsComponents (g : LinkGraph) : Prop where
  /-- Every search ends, whatever nodes it takes, and always with the same labels: from the first
  node, and from every later one that no search before it has labelled. -/
  ends : ∀ before a after, g.nodes.toList = before ++ a :: after →
    ∀ labels next, before.foldl g.labelFrom (∅, 0) = (labels, next) → labels[a]? = none →
      EndsIn (Turn g next) (labels.insert a next, [a])
        (g.flood next g.nodeCount (labels.insert a next, [a]), [])
  /-- In particular it may take the node that has waited longest, and so go breadth first. -/
  breadthFirst : ∀ label labels a queue, Turn g label (labels, a :: queue)
    ((g.neighboursOf a).foldl (visitLast label) (labels, queue))
  /-- Exactly the nodes belong to components. -/
  numbered : ∀ a, g.components.contains a ↔ a ∈ g.nodes.toList
  /-- Two nodes belong to the same one exactly if a path of links joins them. -/
  connected : ∀ a ∈ g.nodes.toList, ∀ b ∈ g.nodes.toList,
    g.components[a]? = g.components[b]? ↔ Relation.ReflTransGen (fun x y => g.linked x y) a b
  /-- Along the nodes, in the order in which they were added, the numbers that are met for the first
  time are zero, one and so on. -/
  inOrder : ∃ k, keepFirst id (g.nodes.toList.filterMap (g.components[·]?)) = List.range k

/-- A graph whose neighbours and links agree has its components found. -/
theorem Sound.findsComponents (hg : g.Sound)
    (hlinked : ∀ a b, b ∈ g.neighboursOf a ↔ g.linked a b) : g.FindsComponents where
  ends before a after hnodes labels next hfound hnew := by
    have hmem (x : Address) (hx : x ∈ before) : x ∈ g.nodes.toList := by
      rw [hnodes]
      exact List.mem_append_left _ hx
    have hclosed : g.Closed (before.foldl g.labelFrom (∅, 0)).1 :=
      Closed.foldl_labelFrom g.closed_empty hg hmem
    rw [hfound] at hclosed
    exact endsIn_flood hg hclosed (by simp [hnodes]) hnew next
  breadthFirst := turn_first g
  numbered a := by
    rw [Std.ExtTreeMap.contains_eq_isSome_getElem?, Option.isSome_iff_exists]
    constructor
    · rintro ⟨l, hl⟩
      exact mem_nodes_of_components hg hl
    · exact (numbered_components hg).2 a
  connected a ha b _ := by
    rw [components_eq_iff hg ha, Connected]
    simp only [hlinked]
  inOrder := by
    have hall := keepFirst_foldl_labelFrom hg (List.append_nil g.nodes.toList).symm
    exact ⟨_, hall⟩

/-- Whatever nodes and links were added, with what repetitions, in what order and be it from a node
to itself: the nodes are what was named, in the order in which it first was, and the components of
the graph are found. -/
theorem run_finds_components (changes : List Change) :
    (run changes).nodes.toList = keepFirst id (changes.flatMap Change.named) ∧
      (run changes).FindsComponents :=
  ⟨nodes_run changes, (sound_run changes).findsComponents fun _ _ => mem_neighboursOf_run_iff⟩

end LinkGraph

end BatchOrder
