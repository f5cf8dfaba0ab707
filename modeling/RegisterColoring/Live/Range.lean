/-!
# Live Ranges

Within a block a register is live over spans of instructions, each from a write
or the start of the block to the last read that sees the value. A live range is
a span with the block it lies in.

An instruction reads its operands before it writes its results, so a range that
ends where another starts does not overlap it.

## Main definitions

* `Span`, `LiveRange`: Consecutive instructions of a block.
* `LiveRange.overlaps`: Two ranges need different registers.
* `stretch`: Keep the latest span alive to the end of the block.
* `extent`: How many instructions a list of ranges covers.
-/

namespace RegisterColoring

/-- The instructions from `start` to `stop`, both included. -/
structure Span where
  start : Nat
  stop : Nat
deriving DecidableEq, Repr

/-- A span of instructions in a block. -/
structure LiveRange where
  block : Nat
  start : Nat
  stop : Nat
deriving DecidableEq, Repr

/-- Spans are ordered by their start, then by their end. -/
def Span.before (s t : Span) : Bool :=
  decide (s.start < t.start) || (decide (s.start = t.start) && decide (s.stop < t.stop))

/-- Let the latest span, the first listed of those with the greatest start, end
    at `last`. -/
def stretch (last : Nat) : List Span → List Span
  | [] => []
  | s :: rest =>
      if rest.all fun t => decide (t.start ≤ s.start) then { s with stop := last } :: rest
      else s :: stretch last rest

/-- The range that a span is in block `b`. -/
def Span.inBlock (b : Nat) (s : Span) : LiveRange :=
  ⟨b, s.start, s.stop⟩

namespace LiveRange

/-- Ranges are ordered by block, then by start, then by end. -/
def before (r s : LiveRange) : Bool :=
  decide (r.block < s.block)
    || (decide (r.block = s.block)
      && (decide (r.start < s.start)
        || (decide (r.start = s.start) && decide (r.stop < s.stop))))

/-- Two ranges of one block overlap unless one starts first and ends no later
    than the other starts. -/
def overlaps (r s : LiveRange) : Bool :=
  decide (r.block = s.block)
    && !((decide (r.start < s.start) && decide (r.stop ≤ s.start))
      || (decide (s.start < r.start) && decide (s.stop ≤ r.start)))

end LiveRange

/-- The instructions of block `b` from the earliest start to the latest end of a range. -/
def extentIn (ranges : List LiveRange) (b : Nat) : Nat :=
  let here := ranges.filter fun r => decide (r.block = b)
  ((here.map LiveRange.stop).max?.getD 0) + 1 - (here.map LiveRange.start).min?.getD 0

/-- The instructions that ranges cover, counted block by block from the earliest
    start to the latest end. -/
def extent (ranges : List LiveRange) : Nat :=
  ((ranges.map LiveRange.block).eraseDups.map (extentIn ranges)).foldr (· + ·) 0

end RegisterColoring
