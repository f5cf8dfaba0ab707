import RegisterColoring.Error
import RegisterColoring.ControlFlow

/-!
# Well-Formed Functions

The check that a function is in static single assignment form. Every block ends
with terminators and has nothing between them, every branch passes as many
arguments as its target has inputs, every virtual register is written once, and
every read is preceded by the write on all paths from the entry block.

Faults are looked for in a fixed order and the first one is reported: inside
each block, then definitions repeated across blocks, then reads along the simple
paths from the entry, then blocks that no path reaches. Registers are told apart
by id alone.

The paths are followed one block at a time, with the ids that the path defines at
hand. They grow when the path goes on to a block and shrink when it goes back, so
that a block where paths join is looked at once for each of them.

## Main definitions

* `Block.fault?`: The first fault inside a block.
* `PathWalk.visit`: The walk along the paths.
* `Function.fault?`: The first fault of a function.
* `Function.check`: Accept the well-formed functions.
-/

namespace RegisterColoring

variable {M : Machine}

namespace Instr

/-- The ids of the virtual registers it writes. -/
def defIds (i : Instr M) : List Nat :=
  (i.defs.filterMap Register.virtual?).map VReg.id

/-- The ids of the virtual registers it reads. -/
def readIds (i : Instr M) : List Nat :=
  (i.reads.filterMap Register.virtual?).map VReg.id

end Instr

namespace Block

/-- The ids that are defined before instruction `k`, by an input or an instruction. -/
def idsBefore (b : Block M) (k : Nat) : List Nat :=
  b.inputs.map VReg.id ++ (b.code.take k).flatMap Instr.defIds

/-- The ids that the block defines, in order. -/
def ids (b : Block M) : List Nat :=
  b.inputs.map VReg.id ++ b.code.flatMap Instr.defIds

/-- The ids that the block reads before it defines them, in order. -/
def needs (b : Block M) : List Nat :=
  b.code.zipIdx.flatMap fun (i, k) => i.readIds.filter fun r => !(b.idsBefore k).contains r

end Block

/-- The first id that stands in `seen` or occurs in the list a second time. -/
def firstRepeat (seen : List Nat) : List Nat → Option Nat
  | [] => none
  | r :: rest => if seen.contains r then some r else firstRepeat (r :: seen) rest

/-- A branch has to name an existing block and pass an argument for each of its inputs. -/
def Branch.fault? (f : Function M) (label : Nat) (branch : Branch M) : Option Malformed :=
  match f.blocks[branch.target]? with
  | none => some (.unknownBlock label branch.target)
  | some target =>
      if branch.args.length = target.inputs.length then none
      else some (.argumentCount label branch.target target.inputs.length branch.args.length)

/-- The first fault at instruction `k` of a block. -/
def Instr.fault? (f : Function M) (label : Nat) (b : Block M) (i : Instr M) (k : Nat) :
    Option Malformed :=
  if (b.code.take k).any Instr.isTerminator && !i.isTerminator then
    some (.instructionAfterTerminator label k)
  else
    ((firstRepeat (b.idsBefore k) i.defIds).map fun r => .duplicateDefinition r label).or
      (if i.isTerminator then i.branches.findSome? (Branch.fault? f label) else none)

/-- The first fault inside a block: in its inputs, its instructions, or a missing terminator. -/
def Block.fault? (f : Function M) (label : Nat) (b : Block M) : Option Malformed :=
  ((firstRepeat [] (b.inputs.map VReg.id)).map fun r => .duplicateDefinition r label).or
    ((b.code.zipIdx.findSome? fun (i, k) => i.fault? f label b k).or
      (if b.code.any Instr.isTerminator then none else some (.unterminatedBlock label)))

/-- The first id that a block defines after an earlier block did. -/
def duplicateAcross? (seen : List Nat) (label : Nat) : List (Block M) → Option Malformed
  | [] => none
  | b :: rest =>
      match b.ids.find? fun r => seen.contains r with
      | some r => some (.duplicateDefinition r label)
      | none => duplicateAcross? (b.ids ++ seen) (label + 1) rest

/-- A walk along the simple paths from the entry block. -/
structure PathWalk where
  /-- The blocks of the path, the latest first. -/
  onPath : List Nat
  /-- The blocks that any path has come to. -/
  visited : List Nat
  /-- The ids that the blocks of the path define. -/
  defs : List Nat

namespace PathWalk

/-- Before the entry block nothing is defined. -/
def start : PathWalk :=
  ⟨[], [], []⟩

/-- The path goes on to block `b`, which defines `ids`. -/
def enter (w : PathWalk) (b : Nat) (ids : List Nat) : PathWalk :=
  ⟨b :: w.onPath, w.visited.insert b, ids ++ w.defs⟩

/-- The path goes back from block `b`, which takes its `ids` with it. -/
def leave (w : PathWalk) (b : Nat) (ids : List Nat) : PathWalk :=
  { w with
    onPath := w.onPath.filter fun c => decide (c ≠ b)
    defs := w.defs.filter fun r => !ids.contains r }

/-- Go to block `b`, which has to find what it needs among the ids of the path, then
    to each of its successors that is not on the path, and back. At most `room`
    blocks can join the path. -/
def visit (succ ids needs : Nat → List Nat) : (room : Nat) → PathWalk → (b : Nat) →
    Except Malformed PathWalk
  | 0, w, _ => .ok w
  | room + 1, w, b =>
      match (needs b).find? fun r => !w.defs.contains r with
      | some r => .error (.undefinedUse r b)
      | none =>
          let rest := (succ b).foldlM (fun w next =>
            if w.onPath.contains next then .ok w else visit succ ids needs room w next)
              (w.enter b (ids b))
          rest.map fun w => w.leave b (ids b)

end PathWalk

namespace Function

/-- The first fault along the paths from the entry block: a read of an id that the
    path does not define, or else a block that no path comes to. -/
def pathFault? (f : Function M) : Option Malformed :=
  let graph := f.flow
  let ids := (f.blocks.map Block.ids).toArray
  let needs := (f.blocks.map Block.needs).toArray
  match PathWalk.visit graph.succ (fun b => ids.getD b []) (fun b => needs.getD b []) f.size
      .start 0 with
  | .error cause => some cause
  | .ok walk =>
      ((List.range f.size).find? fun b => !walk.visited.contains b).map .unreachableBlock

/-- The first fault of a function. A function without blocks has none. -/
def fault? (f : Function M) : Option Malformed :=
  (f.blocks.zipIdx.findSome? fun (b, label) => b.fault? f label).or
    ((duplicateAcross? [] 0 f.blocks).or f.pathFault?)

/-- Accept the functions without a fault. -/
def check (f : Function M) : Except Malformed Unit :=
  match f.fault? with
  | none => .ok ()
  | some cause => .error cause

end Function

end RegisterColoring
