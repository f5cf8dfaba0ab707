import RegisterColoring.Code
import RegisterColoring.Digraph

/-!
# Control Flow

A block passes control to the blocks that its trailing terminators refer to.
The control flow graph of a function has its blocks as nodes and drops
references to blocks that do not exist.

Analyses follow the simple paths from the entry block. `arrivalsFrom` lists
every step of them: each time control enters a block, with the path that led
there. A path goes on only through blocks that are not on it yet, so an arrival
at a block of its own path is the end of a loop.

## Main definitions

* `Block.successors`: The blocks that control may pass to.
* `Function.flow`: The control flow graph.
* `Function.arrivals`: Every arrival at a block along a simple path.
* `Arrival.loop?`: The blocks of the loop that an arrival closes.
-/

namespace RegisterColoring

variable {M : Machine}

/-- The blocks that the trailing terminators refer to, whether they exist or not. -/
def Block.successors (b : Block M) : List Nat :=
  ascending below (b.run.flatMap Instr.references)

/-- The control flow graph: every block, linked to its existing successors. -/
def Function.flow (f : Function M) : Digraph (Block M) :=
  ⟨(f.blocks.map fun b => ⟨b, b.successors.filter (below · f.size)⟩).toArray⟩

/-- Control enters `block` after the blocks of `path`, the latest of them first. -/
structure Arrival where
  path : List Nat
  block : Nat
deriving DecidableEq, Repr

/-- The arrivals along simple paths that enter `block` after `path`, in the order
    of a depth-first walk. At most `room` more blocks can join the path. -/
def arrivalsFrom (succ : Nat → List Nat) : (room : Nat) → (path : List Nat) → (block : Nat) →
    List Arrival
  | 0, path, block => [⟨path, block⟩]
  | room + 1, path, block =>
      ⟨path, block⟩ ::
        if path.contains block then []
        else (succ block).flatMap fun next => arrivalsFrom succ room (block :: path) next

/-- Every arrival along a simple path from the entry block. -/
def Function.arrivals (f : Function M) : List Arrival :=
  let graph := f.flow
  if graph.size = 0 then [] else arrivalsFrom graph.succ graph.size [] 0

/-- The blocks from an earlier visit of the block to the end of the path, if the
    arrival closes a loop. -/
def Arrival.loop? (a : Arrival) : Option (List Nat) :=
  if a.path.contains a.block then some (a.path.takeWhile (· ≠ a.block) ++ [a.block]) else none

end RegisterColoring
