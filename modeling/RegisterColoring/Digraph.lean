import RegisterColoring.Ascending

/-!
# Directed Graphs

Nodes are numbered from 0 in the order in which they were added. A node holds a
label and the ascending list of the nodes it links to; predecessors are read off
those lists, so the two directions never disagree.

## Main definitions

* `Digraph`: Labelled nodes with their successors.
* `Digraph.insert`, `Digraph.link?`: Grow a graph by a node or a link.
* `Digraph.ofRelation`: The graph of a relation between numbered labels.
-/

namespace RegisterColoring

/-- A node: its label and the nodes it links to, ascending. -/
structure Digraph.Node (α : Type) where
  label : α
  succ : List Nat

/-- A directed graph. -/
structure Digraph (α : Type) where
  nodes : Array (Digraph.Node α)

namespace Digraph

variable {α : Type}

def empty : Digraph α :=
  ⟨#[]⟩

/-- The number of nodes. -/
def size (g : Digraph α) : Nat :=
  g.nodes.size

/-- Add a node without links; its number is the old number of nodes. -/
def insert (g : Digraph α) (label : α) : Digraph α :=
  ⟨g.nodes.push ⟨label, []⟩⟩

def label? (g : Digraph α) (n : Nat) : Option α :=
  g.nodes[n]?.map Node.label

/-- The nodes that `n` links to, ascending. -/
def succ (g : Digraph α) (n : Nat) : List Nat :=
  match g.nodes[n]? with
  | some node => node.succ
  | none => []

/-- Node `n` links to `m`. -/
def isLinked (g : Digraph α) (n m : Nat) : Bool :=
  (g.succ n).contains m

/-- The nodes that link to `n`, ascending. -/
def pred (g : Digraph α) (n : Nat) : List Nat :=
  (List.range g.size).filter fun m => g.isLinked m n

/-- The nodes that `n` links to or that link to `n`, ascending. -/
def adj (g : Digraph α) (n : Nat) : List Nat :=
  (List.range g.size).filter fun m => g.isLinked n m || g.isLinked m n

/-- Add a link, and say whether it is new. Both nodes have to exist. -/
def link? (g : Digraph α) (n m : Nat) : Option (Bool × Digraph α) :=
  if n < g.size ∧ m < g.size then
    some (!g.isLinked n m,
      ⟨g.nodes.modify n fun node => { node with succ := insertAscending below m node.succ }⟩)
  else none

/-- Add a link in both directions. -/
def linkBoth? (g : Digraph α) (n m : Nat) : Option (Digraph α) := do
  let (_, there) ← g.link? n m
  let (_, both) ← there.link? m n
  return both

/-- The graph on the given labels in which `n` links to `m` if the two are
    different and related. -/
def ofRelation (labels : List α) (related : α → α → Bool) : Digraph α :=
  ⟨(labels.zipIdx.map fun (a, n) =>
    { label := a
      succ := labels.zipIdx.filterMap fun (b, m) =>
        if n ≠ m && related a b then some m else none : Node α }).toArray⟩

end Digraph

end RegisterColoring
