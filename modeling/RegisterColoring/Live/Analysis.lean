import RegisterColoring.Error
import RegisterColoring.Live.Ledger
import RegisterColoring.Live.Spread
import RegisterColoring.Partition

/-!
# Liveness of a Function

The live ranges of all registers, the registers live into each block, and the
groups of registers that tied operands force into one place.

The ranges of a virtual register come from the scans of the blocks, with its
spread across blocks worked in. Physical registers have to be written in the
block that reads them, so theirs come from the scans alone, by way of the ledger
in which the registers of one family share a list.

## Main definitions

* `Liveness`: Ranges, groups and live-in registers.
* `vregRanges`: The ranges of one virtual register.
* `gather`: Registers that share a representative, in order.
* `Function.liveness`: The analysis.
-/

namespace RegisterColoring

variable {M : Machine}

/-- What is live where in a function. -/
structure Liveness (M : Machine) where
  /-- The ascending ranges of every register that has any, in the order of registers. -/
  ranges : List (Register M × List LiveRange)
  /-- The groups of registers that share a place, each ascending, in the order of
      their first members. A register that is tied to no other is a group of its own. -/
  groups : List (List (Register M))
  /-- The registers live into each block, ascending. -/
  liveIn : List (List (Register M))

/-- The ranges of a register; a register that is never live on its own has none. -/
def Liveness.rangesOf (l : Liveness M) (r : Register M) : List LiveRange :=
  (l.ranges.lookup r).getD []

/-- The first physical register, in the first such block, that is read before
    anything in the block writes it. -/
def physicalLiveIn? (scans : List (Scan M)) : Option Unsupported :=
  scans.zipIdx.findSome? fun (s, b) =>
    ((ascending Machine.regBelow
      (s.pending.filterMap fun entry => entry.1.physical?)).head?).map fun p =>
        .physicalLiveIn (M.regName p) b

/-- Spans as ranges of block `b`, ascending. -/
def rangesIn (b : Nat) (spans : List Span) : List LiveRange :=
  (ascending Span.before spans).map (Span.inBlock b)

/-- The blocks whose scans have a property. -/
def blocksWhere (scans : List (Scan M)) (p : Scan M → Bool) : List Nat :=
  scans.zipIdx.filterMap fun (s, b) => if p s then some b else none

/-- Where a register occurs. -/
def presence (scans : List (Scan M)) (r : Register M) : Presence :=
  ⟨blocksWhere scans (·.exposes r), blocksWhere scans (·.defines r)⟩

/-- The spans of a virtual register in block `b`, whose last instruction is `last`. -/
def spreadSpans (s : Spread) (b last : Nat) (spans : List Span) : List Span :=
  if s.through.contains b then [⟨0, last⟩]
  else if s.tails.contains b then stretch last spans
  else spans

/-- The ranges of a virtual register, from the scans of the blocks and the last
    indexes of their instructions. -/
def vregRanges (scans : List (Scan M × Nat)) (s : Spread) (r : Register M) : List LiveRange :=
  scans.zipIdx.flatMap fun ((scan, last), b) =>
    rangesIn b (spreadSpans s b last (scan.spans r))

/-- Put `a` with the others of its key, or alone behind them all. -/
def addToGroup {α β : Type} [DecidableEq β] (key : β) (a : α) :
    List (β × List α) → List (β × List α)
  | [] => [(key, [a])]
  | (k, group) :: rest =>
      if k = key then (k, group ++ [a]) :: rest else (k, group) :: addToGroup key a rest

/-- The elements of a list with equal keys, in order of first appearance. -/
def gather {α β : Type} [DecidableEq β] (key : α → β) (l : List α) : List (List α) :=
  (l.foldl (fun groups a => addToGroup (key a) a groups) []).map Prod.snd

/-- A virtual register with the blocks it is live into and its ranges. -/
structure Track (M : Machine) where
  reg : Register M
  liveInto : List Nat
  ranges : List LiveRange

namespace Function

/-- The pairs of registers that the opcodes tie together, in the order of a
    backward scan of each block. -/
def ties (f : Function M) : List (Register M × Register M) :=
  f.blocks.flatMap fun b => b.code.reverse.flatMap Instr.ties

/-- The registers that ties connect, as disjoint sets. -/
def tiedSets (f : Function M) : Partition (Register M) :=
  f.ties.foldl (fun sets (written, read) => sets.union written read) .empty

/-- The groups of the given registers and of those in ties. -/
def tiedGroups (f : Function M) (registers : List (Register M)) : List (List (Register M)) :=
  let tied := f.ties.flatMap fun (written, read) => [written, read]
  gather f.tiedSets.rootD (ascending Register.before (registers ++ tied))

/-- Follow each virtual register through the function. -/
def tracks (f : Function M) (scans : List (Scan M)) : List (Track M) :=
  let arrivals := f.arrivals
  let loops := arrivals.filterMap Arrival.loop?
  let ends := scans.zip (f.blocks.map Block.lastIndex)
  let virtuals := (scans.flatMap Scan.registers).filter Register.isVirtual
  (ascending Register.before virtuals).map fun r =>
    let p := presence scans r
    let s := p.spread f.size arrivals loops
    ⟨r, (List.range f.size).filter (p.liveInto s), vregRanges ends s r⟩

/-- What is live where, from the scans of the blocks. -/
def livenessOf (f : Function M) (scans : List (Scan M)) : Liveness M :=
  let tracks := f.tracks scans
  let ranges := tracks.map (fun t => (t.reg, t.ranges)) ++ (ledgerOf scans).entries
  { ranges
    groups := f.tiedGroups (ranges.map Prod.fst)
    liveIn := (List.range f.size).map fun b =>
      tracks.filterMap fun t => if t.liveInto.contains b then some t.reg else none }

/-- Analyse the liveness of a function. -/
def liveness (f : Function M) : Except Unsupported (Liveness M) :=
  let scans := f.blocks.map Block.scan
  match physicalLiveIn? scans with
  | some cause => .error cause
  | none => .ok (f.livenessOf scans)

end Function

end RegisterColoring
