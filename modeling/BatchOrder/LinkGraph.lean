import Std.Data.ExtTreeMap
import Std.Data.HashMap
import Std.Data.HashSet
import BatchOrder.Transaction

/-!
# The graph of linked accounts

Accounts that a transaction names together belong together. The graph has the accounts as its nodes,
in the order in which they were added, and undirected links between them. Nodes are gathered into
connected components by a search that visits every node once.

The links are kept twice, as neighbours of a node for the search and as a set of pairs for the
question whether a link is there, so that adding a link takes the same time however many there are.
-/

namespace BatchOrder

/-- An undirected graph on accounts, without loops and multiple links. -/
structure LinkGraph where
  /-- The nodes in the order in which they were added. -/
  nodes : Array Address
  /-- The nodes linked to every node, in the order in which the links were added. -/
  neighbours : Std.HashMap Address (Array Address)
  /-- The links, each with its lesser node first. -/
  links : Std.HashSet (Address × Address)

namespace LinkGraph

/-- The graph without nodes. -/
def empty : LinkGraph := ⟨#[], ∅, ∅⟩

instance : EmptyCollection LinkGraph := ⟨empty⟩

instance : Inhabited LinkGraph := ⟨∅⟩

/-- The number of nodes. -/
def nodeCount (g : LinkGraph) : Nat := g.nodes.size

/-- The number of links. -/
def linkCount (g : LinkGraph) : Nat := g.links.size

/-- Two accounts as an unordered pair: the lesser one first. -/
def pair (a b : Address) : Address × Address :=
  if (compare a b).isLE then (a, b) else (b, a)

/-- Whether two accounts are linked. -/
def linked (g : LinkGraph) (a b : Address) : Bool := g.links.contains (pair a b)

/-- Make an account a node if it is none. -/
def insert (g : LinkGraph) (a : Address) : LinkGraph :=
  if g.neighbours.contains a then g
  else { g with nodes := g.nodes.push a, neighbours := g.neighbours.insert a #[] }

/-- Record `b` as a neighbour of `a`. -/
def addNeighbour (neighbours : Std.HashMap Address (Array Address)) (a b : Address) :
    Std.HashMap Address (Array Address) :=
  neighbours.alter a fun known => some ((known.getD #[]).push b)

/-- Make two accounts nodes and link them, unless they are one account or linked already. -/
def link (g : LinkGraph) (a b : Address) : LinkGraph :=
  let g := (g.insert a).insert b
  if a = b || g.linked a b then g
  else
    { g with
      neighbours := addNeighbour (addNeighbour g.neighbours a b) b a
      links := g.links.insert (pair a b) }

/-! ## Connected components -/

/-- The component found so far of every node visited. -/
abbrev Labels := Std.ExtTreeMap Address Nat

/-- Visit a node that has no label yet: give it one and put it on the stack. -/
def visit (label : Nat) (search : Labels × List Address) (a : Address) : Labels × List Address :=
  if search.1.contains a then search else (search.1.insert a label, a :: search.2)

/-- Label everything that can be reached from the nodes on a stack, taking at most so many nodes
from it. As no node is put on the stack twice, the number of nodes is always enough. -/
def flood (g : LinkGraph) (label : Nat) : Nat → Labels × List Address → Labels
  | _, (labels, []) => labels
  | 0, (labels, _) => labels
  | n + 1, (labels, a :: stack) =>
    flood g label n ((g.neighbours.getD a #[]).foldl (visit label) (labels, stack))

/-- Label the component of a node with the next free number, unless the node has a label. -/
def labelFrom (g : LinkGraph) (found : Labels × Nat) (a : Address) : Labels × Nat :=
  if found.1.contains a then found
  else (g.flood found.2 g.nodeCount (found.1.insert a found.2, [a]), found.2 + 1)

/-- The number of the component of every node. Components are numbered from zero in the order of
their first nodes. -/
def components (g : LinkGraph) : Labels := (g.nodes.foldl (labelFrom g) (∅, 0)).1

/-! ## The graph of a batch -/

/-- Link every account of a list with the one after it. -/
def linkChain (g : LinkGraph) : List Address → LinkGraph
  | [] => g
  | [a] => g.insert a
  | a :: b :: rest => (g.link a b).linkChain (b :: rest)

/-- The graph that links the accounts of every transaction in the order of its actions. -/
def ofBatch (b : Batch) : LinkGraph := b.foldl (fun g tx => g.linkChain tx.senders) ∅

end LinkGraph

end BatchOrder
