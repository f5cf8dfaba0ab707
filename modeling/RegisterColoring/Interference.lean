import RegisterColoring.Live.Analysis

/-!
# Interference

Registers that are live at the same time need different places. The interference
graph has a node for each group of tied registers. Two nodes are linked if both
hold physical registers, or if a range of one overlaps a range of the other.

## Main definitions

* `Interference`: The graph.
* `Liveness.interference`: The graph of an analysis.
-/

namespace RegisterColoring

variable {M : Machine}

/-- A group of registers with all its ranges. -/
structure Group (M : Machine) where
  regs : List (Register M)
  ranges : List LiveRange

namespace Group

def holdsPhysical (g : Group M) : Bool :=
  g.regs.any fun r => !r.isVirtual

/-- The groups cannot share a place. -/
def clashes (g h : Group M) : Bool :=
  (g.holdsPhysical && h.holdsPhysical)
    || g.ranges.any fun a => h.ranges.any fun b => a.overlaps b

/-- The class of the first virtual register. -/
def class? (g : Group M) : Option M.Class :=
  (g.regs.findSome? Register.virtual?).map VReg.cls

end Group

/-- A graph of groups, linked both ways where they cannot share a place. -/
abbrev Interference (M : Machine) := Digraph (Group M)

namespace Interference

/-- The registers of a node. -/
def regs (g : Interference M) (n : Nat) : List (Register M) :=
  match g.label? n with
  | some group => group.regs
  | none => []

/-- The class of the first virtual register of a node. -/
def class? (g : Interference M) (n : Nat) : Option M.Class :=
  (g.label? n).bind Group.class?

/-- The nodes that cannot share a place with `n`, ascending. -/
def neighbors (g : Interference M) (n : Nat) : List Nat :=
  g.succ n

/-- The node that holds a register. -/
def node? (g : Interference M) (r : Register M) : Option Nat :=
  (List.range g.size).find? fun n => (g.regs n).contains r

end Interference

/-- The interference graph of an analysis. -/
def Liveness.interference (l : Liveness M) : Interference M :=
  .ofRelation (l.groups.map fun regs => ⟨regs, regs.flatMap l.rangesOf⟩) Group.clashes

end RegisterColoring
