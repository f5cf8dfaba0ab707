import RegisterColoring.ControlFlow

/-!
# Liveness Across Blocks

A value that a block reads before writing it comes from another block. The walk
over the simple paths keeps a register alive from its latest definition on the
path to the block that needs it: to the end of the defining block and through
all blocks between. A second step closes loops, because a register that flows
into a loop from outside has to survive every turn of it.

Each register is tracked on its own, by the blocks that read it first and the
blocks that write it.

## Main definitions

* `Presence`: Where a register is read first and where it is written.
* `Spread`: Through which blocks it is live, and where it lives on to the end.
* `Presence.spread`: The spread along all arrivals and around all loops.
-/

namespace RegisterColoring

/-- Where a register occurs. -/
structure Presence where
  /-- The blocks that read it before they write it. -/
  exposed : List Nat
  /-- The blocks that write it. -/
  written : List Nat

/-- How far a register is live. -/
structure Spread where
  /-- The blocks that it is live through, from start to end. -/
  through : List Nat
  /-- The blocks whose last definition of it is live at the end. -/
  tails : List Nat
deriving DecidableEq, Repr

/-- Put the elements of `l` into `set` that are not there. -/
def insertAll (l set : List Nat) : List Nat :=
  l.foldr List.insert set

/-- Apply `f` until nothing changes, at most `n` times. -/
def settle {α : Type} [DecidableEq α] (f : α → α) : Nat → α → α
  | 0, a => a
  | n + 1, a => if f a = a then a else settle f n (f a)

namespace Presence

/-- The register is live into block `b`. -/
def liveInto (p : Presence) (s : Spread) (b : Nat) : Bool :=
  p.exposed.contains b || s.through.contains b

/-- The blocks of a path, the latest first, down to the latest that writes the
    register: those after it, and that one with the blocks before it. -/
def splitPath (p : Presence) (path : List Nat) : List Nat × List Nat :=
  (path.takeWhile fun b => !p.written.contains b, path.dropWhile fun b => !p.written.contains b)

/-- Control arrives at a block. If the register is live into it, it is kept alive
    from its latest definition on the path. -/
def arrive (p : Presence) (s : Spread) (a : Arrival) : Spread :=
  if p.liveInto s a.block then
    match p.splitPath a.path with
    | (_, []) => s
    | (between, origin :: _) =>
        { through := insertAll between s.through, tails := s.tails.insert origin }
  else s

/-- A register that is live into a block of a loop and written in none is live
    through all of them. -/
def closeLoop (p : Presence) (s : Spread) (body : List Nat) : Spread :=
  if body.any (p.liveInto s) && !body.any p.written.contains then
    { s with through := insertAll body s.through }
  else s

/-- The spread of a register in a function of `size` blocks. Each pass over the
    loops that changes anything adds a block, so `size` passes are enough. -/
def spread (p : Presence) (size : Nat) (arrivals : List Arrival) (loops : List (List Nat)) :
    Spread :=
  settle (fun s => loops.foldl p.closeLoop s) size (arrivals.foldl p.arrive ⟨[], []⟩)

end Presence

end RegisterColoring
