import RegisterColoring.Interference

/-!
# Greedy Coloring

A node that holds a physical register keeps it. The others are colored one after
the other, always the one with the most colored neighbours and the lowest of
those, with the first register of its class that is in no alias set of a colored
neighbour's register. Their numbers of colored neighbours are kept up to date as they go.

The next node comes from a queue of entries, each of them a node with the count
that it had when it was entered. A node whose count grows is entered once more
and its old entry stays where it is, so an entry is skipped if it no longer says
what is known about its node.

A node that finds no register stays uncolored, and it and its colored neighbours
at that moment are blamed. If anything is blamed, the blames are the result: they
say what to spill.

## Main definitions

* `Assignment`: Registers for nodes.
* `Coloring`: A full assignment, or the blames.
* `precolor`: The assignment of the nodes that hold physical registers.
* `Greedy.process`: Color a node or blame it.
* `Queued.step`: Color the next node of the queue.
* `Interference.color`: Color all nodes.
-/

namespace RegisterColoring

variable {M : Machine}

/-- The registers given to nodes. -/
abbrev Assignment (M : Machine) := List (Nat × M.Reg)

/-- The outcome of coloring. -/
inductive Coloring (M : Machine) where
  /-- Every node, ascending, with its register. -/
  | complete (colors : Assignment M)
  /-- The blamed nodes, ascending, with how often each was blamed. -/
  | stuck (blames : List (Nat × Nat))

/-- The one physical register of a list, if there is any. Two different ones
    cannot be had. -/
def soleRegister (regs : List (Register M)) : Except Unsupported (Option M.Reg) :=
  match regs.filterMap Register.physical? with
  | [] => .ok none
  | first :: rest =>
      match rest.find? fun p => decide (p ≠ first) with
      | none => .ok (some first)
      | some second => .error (.conflictingTies (M.regName first) (M.regName second))

/-- The registers that the nodes from `n` on hold themselves. -/
def precolor : (n : Nat) → List (List (Register M)) → Except Unsupported (Assignment M)
  | _, [] => .ok []
  | n, regs :: rest => do
      let own ← soleRegister regs
      let others ← precolor (n + 1) rest
      return match own with
        | some p => (n, p) :: others
        | none => others

/-- Coloring under way. -/
structure Greedy (M : Machine) where
  colors : Assignment M
  /-- The nodes to color, ascending, with their numbers of colored neighbours. -/
  waiting : List (Nat × Nat)
  /-- How often each node was blamed. -/
  blames : List (Nat × Nat)

/-- One more blame for node `n`, in an ascending list. -/
def blame (n : Nat) : List (Nat × Nat) → List (Nat × Nat)
  | [] => [(n, 1)]
  | (m, count) :: rest =>
      if n < m then (n, 1) :: (m, count) :: rest
      else if n = m then (m, count + 1) :: rest
      else (m, count) :: blame n rest

namespace Greedy

/-- The first register of class `c` that the registers of the given nodes leave free. They
    block all that they alias. -/
def freeRegister? (colors : Assignment M) (neighbors : List Nat) (c : M.Class) : Option M.Reg :=
  let taken := neighbors.filterMap fun n => colors.lookup n
  let blocked := taken.flatMap Machine.aliasSet
  (M.members c).find? fun p => !blocked.contains p

/-- Color node `n` or blame it and its colored neighbours. -/
def process (g : Interference M) (s : Greedy M) (n : Nat) : Greedy M :=
  let neighbors := g.neighbors n
  let waiting := s.waiting.filter fun entry => decide (entry.1 ≠ n)
  match g.class? n with
  | none => { s with waiting }
  | some c =>
      match freeRegister? s.colors neighbors c with
      | some p =>
          { s with
            colors := (n, p) :: s.colors
            waiting := waiting.map fun (m, count) =>
              if neighbors.contains m then (m, count + 1) else (m, count) }
      | none =>
          let colored := neighbors.filter fun m => (s.colors.lookup m).isSome
          { s with waiting, blames := (n :: colored).foldl (fun blames m => blame m blames) s.blames }

/-- The colors of the nodes below `size`, ascending. -/
def colorsUpTo (s : Greedy M) (size : Nat) : Assignment M :=
  (List.range size).filterMap fun n => (s.colors.lookup n).map fun p => (n, p)

end Greedy

/-- An entry comes before another if its node has more colored neighbours, or as many
    and the lower number. -/
def precedes (a b : Nat × Nat) : Bool :=
  below b.2 a.2 || (decide (a.2 = b.2) && below a.1 b.1)

/-- Coloring under way, with the queue that the next node is taken from. -/
structure Queued (M : Machine) extends Greedy M where
  /-- Nodes with the counts that they had when they were entered, the first to be colored
      in front. -/
  queue : List (Nat × Nat)

namespace Queued

/-- Color the first node whose entry is not out of date, and enter the waiting nodes whose
    counts have changed. -/
def step (g : Interference M) (s : Queued M) : Queued M :=
  match s.queue.dropWhile fun entry => !s.waiting.contains entry with
  | [] => { s with queue := [] }
  | (n, _) :: rest =>
      let next := s.process g n
      let changed := next.waiting.filter fun entry => !s.waiting.contains entry
      { next with queue := changed.foldr (insertAscending precedes) rest }

/-- Take the given number of steps. -/
def steps (g : Interference M) : Nat → Queued M → Queued M
  | 0, s => s
  | k + 1, s => steps g k (s.step g)

end Queued

namespace Interference

/-- The state before the first step: all nodes wait that hold no physical register. -/
def start (g : Interference M) (colors : Assignment M) : Greedy M :=
  let waiting := (List.range g.size).filter fun n => (colors.lookup n).isNone
  { colors
    waiting := waiting.map fun n =>
      (n, ((g.neighbors n).filter fun m => (colors.lookup m).isSome).length)
    blames := [] }

/-- Color all nodes. Each step takes one of them off the waiting list. -/
def color (g : Interference M) : Except Unsupported (Coloring M) := do
  let own ← precolor 0 (g.nodes.toList.map fun node => node.label.regs)
  let start := g.start own
  let queued : Queued M := { start with queue := ascending precedes start.waiting }
  let final := queued.steps g start.waiting.length
  return if final.blames.isEmpty then .complete (final.colorsUpTo g.size) else .stuck final.blames

end Interference

end RegisterColoring
