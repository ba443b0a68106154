import Mathlib.Data.Set.Card
import Mathlib.Data.Sym.Sym2
import BatchOrder.Proofs.Components

/-!
# Links of every graph

A graph keeps its nodes in a list and its links twice: as neighbours of every node and as a set of
pairs.  Every pair has its lesser node first, so that a link from one node to another and the link
back are one pair.  What is kept always agrees, whatever nodes and links are added: a link that is
there already, or from a node to itself, adds its nodes and nothing else.

Main results:

- Theorem `linked_run_iff`: what is linked.
- Theorem `simple_run`: no neighbour of a node is noted twice.
- Theorem `keys_run`: neighbours are kept for the nodes and for nothing else.
- Theorem `encard_linkSet_run`: the pairs that are kept are the links, each of them once.
- Theorem `run_records_links`: the parts of every graph agree.
-/

namespace BatchOrder

namespace LinkGraph

/-! ## Pairs -/

/-- Ordered pairs of two accounts are equal exactly if the unordered pairs are. -/
theorem pair_eq_pair_iff_mk {a b x y : Address} : pair a b = pair x y ↔ s(a, b) = s(x, y) := by
  rw [pair_eq_pair_iff, Sym2.eq_iff]
  grind

/-- Ordering two accounts keeps what accounts they are. -/
theorem mk_pair (a b : Address) : s((pair a b).1, (pair a b).2) = s(a, b) := by
  unfold pair
  split
  · rfl
  · exact Sym2.eq_swap

/-- What is in order stays so. -/
theorem pair_pair (a b : Address) : pair (pair a b).1 (pair a b).2 = pair a b :=
  pair_eq_pair_iff_mk.2 (mk_pair a b)

/-! ## What a change does to the links -/

/-- A new node changes no pair that is kept. -/
theorem links_insert (g : LinkGraph) (a : Address) : (g.insert a).links = g.links := by
  unfold insert
  split <;> rfl

/-- Of two nodes linked already, or of one node, nothing is added to the links. -/
theorem links_link (g : LinkGraph) (a b : Address) :
    (g.link a b).links = if a = b || g.linked a b then g.links else g.links.insert (pair a b) := by
  have hlinked : ((g.insert a).insert b).linked a b = g.linked a b := by
    rw [linked_insert, linked_insert]
  have hlinks : ((g.insert a).insert b).links = g.links := by rw [links_insert, links_insert]
  unfold link
  simp only [hlinked]
  split
  · exact hlinks
  · exact congrArg (·.insert (pair a b)) hlinks

/-- A link between two accounts links them, if they are two, and keeps all other links. -/
theorem linked_link_iff {g : LinkGraph} {a b x y : Address} :
    (g.link a b).linked x y ↔ g.linked x y ∨ (a ≠ b ∧ s(a, b) = s(x, y)) := by
  unfold linked
  rw [links_link]
  by_cases hab : a = b
  · simp [hab]
  · by_cases hold : g.linked a b
    · simp only [hold, Bool.or_true, if_true]
      constructor
      · exact .inl
      · rintro (hxy | ⟨_, hsame⟩)
        · exact hxy
        · rw [← pair_eq_pair_iff_mk.2 hsame]
          exact hold
    · simp only [hab, hold, decide_false, Bool.or_self, Bool.false_eq_true, if_false,
        Std.HashSet.contains_insert, Bool.or_eq_true, beq_iff_eq, pair_eq_pair_iff_mk, ne_eq,
        not_false_eq_true, true_and]
      exact or_comm

/-- Linked are two accounts that some change was given, in whichever order. -/
theorem linked_run_iff {changes : List Change} {a b : Address} :
    (run changes).linked a b ↔
      a ≠ b ∧ (Change.link a b ∈ changes ∨ Change.link b a ∈ changes) := by
  induction changes using List.reverseRecOn with
  | nil => simp [run, linked_empty]
  | append_singleton changes c ih =>
      rw [run_append_singleton]
      cases c with
      | insert x =>
          rw [change, linked_insert, ih]
          simp
      | link x y =>
          rw [change, linked_link_iff, ih, Sym2.eq_iff]
          simp only [List.mem_append, List.mem_singleton, Change.link.injEq]
          grind

/-! ## Neighbours -/

/-- Joining two nodes notes each once as a neighbour of the other, behind those noted before. -/
theorem neighboursOf_joined {g : LinkGraph} {a b : Address} (hab : a ≠ b) (x : Address) :
    (g.joined a b).neighboursOf x =
      g.neighboursOf x ++ if x = a then [b] else if x = b then [a] else [] := by
  unfold neighboursOf joined
  rw [getD_addNeighbour, getD_addNeighbour]
  by_cases hxa : x = a
  · subst hxa
    simp [Ne.symm hab]
  · by_cases hxb : x = b
    · subst hxb
      simp [hxa, Ne.symm hxa]
    · simp [hxa, hxb, Ne.symm hxa, Ne.symm hxb]

/-- Neighbours are what is linked, and none of them is noted twice. -/
structure Simple (g : LinkGraph) : Prop where
  matched : g.Matched
  nodup : ∀ x, (g.neighboursOf x).Nodup

theorem simple_empty : Simple ∅ where
  matched := matched_empty
  nodup x := by
    rw [neighboursOf_empty]
    exact List.nodup_nil

/-- Inserting a node notes no neighbour twice. -/
theorem Simple.insert {g : LinkGraph} (hg : g.Simple) (a : Address) : (g.insert a).Simple where
  matched := hg.matched.insert a
  nodup x := by
    rw [neighboursOf_insert]
    exact hg.nodup x

/-- Two nodes that are not linked are not noted as neighbours, so that noting them repeats none. -/
theorem Simple.nodup_joined {g : LinkGraph} (hg : g.Simple) {a b : Address} (hab : a ≠ b)
    (hnew : ¬ g.linked a b) (x : Address) : ((g.joined a b).neighboursOf x).Nodup := by
  rw [neighboursOf_joined hab]
  split
  · next hxa =>
    have hb : b ∉ g.neighboursOf x := fun hb => hnew (hxa ▸ hg.matched x b hb)
    rw [← List.concat_eq_append]
    exact (hg.nodup x).concat hb
  · split
    · next hxb =>
      have ha : a ∉ g.neighboursOf x := by
        intro ha
        have hback : g.linked b a := hxb ▸ hg.matched x a ha
        exact hnew (by rwa [linked, pair_comm])
      rw [← List.concat_eq_append]
      exact (hg.nodup x).concat ha
    · rw [List.append_nil]
      exact hg.nodup x

/-- Adding a link notes no neighbour twice, since a link that is there is not added again. -/
theorem Simple.link {g : LinkGraph} (hg : g.Simple) (a b : Address) : (g.link a b).Simple where
  matched := hg.matched.link a b
  nodup x := by
    have hinserted := (hg.insert a).insert b
    unfold LinkGraph.link
    dsimp only
    split
    · exact hinserted.nodup x
    · next hnew =>
      rw [Bool.or_eq_true, decide_eq_true_eq, not_or] at hnew
      exact hinserted.nodup_joined hnew.1 hnew.2 x

/-- No change notes a neighbour twice. -/
theorem Simple.change {g : LinkGraph} (hg : g.Simple) (c : Change) : (g.change c).Simple :=
  match c with
  | .insert a => hg.insert a
  | .link a b => hg.link a b

/-- No neighbour is noted twice after any run. -/
theorem simple_run (changes : List Change) : (run changes).Simple :=
  run_induction simple_empty (fun _ c hg => hg.change c) changes

/-! ## Nodes -/

/-- No node is listed twice. -/
theorem nodup_nodes_run (changes : List Change) : (run changes).nodes.toList.Nodup := by
  rw [nodes_run]
  exact nodup_keepFirst_id _

/-- Neighbours are kept for the nodes and for nothing else. -/
theorem keys_run (changes : List Change) :
    (run changes).neighbours.keys.Perm (run changes).nodes.toList := by
  apply (List.perm_ext_iff_of_nodup Std.HashMap.nodup_keys (nodup_nodes_run changes)).2
  intro a
  rw [Std.HashMap.mem_keys]
  exact (sound_run changes).known a

/-- The nodes are counted once each. -/
theorem nodeCount_run (changes : List Change) :
    (run changes).nodeCount = (changes.flatMap Change.named).toFinset.card := by
  have hsame : (run changes).nodes.toList.toFinset = (changes.flatMap Change.named).toFinset := by
    ext a
    rw [List.mem_toFinset, List.mem_toFinset, nodes_run, mem_keepFirst_id]
  rw [← hsame, List.toFinset_card_of_nodup (nodup_nodes_run changes), Array.length_toList,
    nodeCount]

/-! ## The number of links -/

/-- The unordered pairs of linked accounts. -/
def linkSet (g : LinkGraph) : Set (Sym2 Address) := {e | ∃ a b, e = s(a, b) ∧ g.linked a b}

/-- All pairs that are kept are in order. -/
def Ordered (g : LinkGraph) : Prop := ∀ e ∈ g.links, pair e.1 e.2 = e

theorem ordered_empty : Ordered ∅ := by
  intro e he
  change e ∈ (∅ : Std.HashSet (Address × Address)) at he
  simp at he

/-- Inserting a node leaves all pairs in order. -/
theorem Ordered.insert {g : LinkGraph} (hg : g.Ordered) (a : Address) : (g.insert a).Ordered := by
  intro e he
  rw [links_insert] at he
  exact hg e he

/-- Adding a link leaves all pairs in order. -/
theorem Ordered.link {g : LinkGraph} (hg : g.Ordered) (a b : Address) : (g.link a b).Ordered := by
  intro e he
  rw [links_link] at he
  split at he
  · exact hg e he
  · rcases Std.HashSet.mem_insert.1 he with hnew | hold
    · rw [← eq_of_beq hnew]
      exact pair_pair a b
    · exact hg e hold

/-- Every change leaves all pairs in order. -/
theorem Ordered.change {g : LinkGraph} (hg : g.Ordered) (c : Change) : (g.change c).Ordered :=
  match c with
  | .insert a => hg.insert a
  | .link a b => hg.link a b

/-- All pairs are in order after every run. -/
theorem ordered_run (changes : List Change) : (run changes).Ordered :=
  run_induction ordered_empty (fun _ c hg => hg.change c) changes

/-- A pair in order is determined by the two accounts in it. -/
theorem Ordered.injOn {g : LinkGraph} (hg : g.Ordered) :
    Set.InjOn (fun e : Address × Address => s(e.1, e.2)) {e | e ∈ g.links} := by
  intro e he f hf hsame
  rw [← hg e he, ← hg f hf]
  exact pair_eq_pair_iff_mk.2 hsame

/-- If all pairs are in order, the links are the pairs that are kept, read without their order. -/
theorem Ordered.linkSet_eq {g : LinkGraph} (hg : g.Ordered) :
    g.linkSet = (fun e : Address × Address => s(e.1, e.2)) '' {e | e ∈ g.links} := by
  ext e
  constructor
  · rintro ⟨a, b, rfl, hab⟩
    exact ⟨pair a b, Std.HashSet.mem_iff_contains.2 hab, mk_pair a b⟩
  · rintro ⟨f, hf, rfl⟩
    refine ⟨f.1, f.2, rfl, ?_⟩
    rw [linked, hg f hf]
    exact Std.HashSet.mem_iff_contains.1 hf

/-- The pairs that are kept are the links, each of them once. -/
theorem encard_linkSet_run (changes : List Change) :
    (run changes).linkSet.encard = (run changes).linkCount := by
  have hordered := ordered_run changes
  generalize run changes = g at hordered ⊢
  have hlist : {e | e ∈ g.links} = (g.links.toList.toFinset : Set (Address × Address)) := by
    ext e
    simp
  have hnodup : g.links.toList.Nodup :=
    Std.HashSet.distinct_toList.imp fun hne => ne_of_beq_false hne
  calc g.linkSet.encard
      = {e | e ∈ g.links}.encard := by rw [hordered.linkSet_eq, hordered.injOn.encard_image]
    _ = g.links.toList.toFinset.card := by rw [hlist, Set.encard_coe_eq_coe_finsetCard]
    _ = g.linkCount := by
        rw [List.toFinset_card_of_nodup hnodup, Std.HashSet.length_toList, linkCount]

/-! ## The parts of every graph -/

/-- What is wanted of a graph that some changes have made of the one without nodes. -/
structure Records (g : LinkGraph) (changes : List Change) : Prop where
  /-- Linked are two accounts that some change was given, in whichever order. -/
  linked : ∀ a b, g.linked a b ↔
    a ≠ b ∧ (Change.link a b ∈ changes ∨ Change.link b a ∈ changes)
  /-- Links have no direction. -/
  symm : ∀ a b, g.linked a b → g.linked b a
  /-- No account is linked with itself. -/
  irrefl : ∀ a, ¬ g.linked a a
  /-- The neighbours of an account are what it is linked with. -/
  neighbours : ∀ a b, b ∈ g.neighboursOf a ↔ g.linked a b
  /-- None of them is noted twice. -/
  noted : ∀ a b, (g.neighboursOf a).count b ≤ 1
  /-- Neighbours are kept for the nodes and for nothing else. -/
  keys : g.neighbours.keys.Perm g.nodes.toList
  /-- No account is a node twice. -/
  distinct : g.nodes.toList.Nodup
  /-- The nodes are the accounts that some change named, in the order in which they first were. -/
  nodes : g.nodes.toList = firsts id (changes.flatMap Change.named)
  /-- The number of links is that of the unordered pairs that are linked. -/
  linkCount : g.linkSet.encard = g.linkCount
  /-- The number of nodes is that of the accounts that some change named. -/
  nodeCount : g.nodeCount = (changes.flatMap Change.named).toFinset.card

/-- Whatever nodes and links were added, with what repetitions, in what order and be it from a node
to itself or back: the parts of the graph tell of the same nodes and links, which are those that
were added. -/
theorem run_records_links (changes : List Change) : (run changes).Records changes where
  linked _ _ := linked_run_iff
  symm a b hab := by rwa [LinkGraph.linked, pair_comm]
  irrefl a ha := (linked_run_iff.1 ha).1 rfl
  neighbours _ _ := mem_neighboursOf_run_iff
  noted a _ := List.nodup_iff_count_le_one.1 ((simple_run changes).nodup a) _
  keys := keys_run changes
  distinct := nodup_nodes_run changes
  nodes := by rw [nodes_run, keepFirst_eq_firsts]
  linkCount := encard_linkSet_run changes
  nodeCount := nodeCount_run changes

end LinkGraph

end BatchOrder
