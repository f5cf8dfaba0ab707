import RegisterColoring.Code
import RegisterColoring.Live.Range

/-!
# Liveness Inside a Block

A block is scanned backwards. The scan holds the registers that are read further
down and not yet written, each with its last read. A write closes every such
register that it aliases and records a span from the write to the latest of
their last reads. What is still pending at the top of the block is live into it.

Inputs are written before the first instruction, so their spans start with it.

## Main definitions

* `Scan`: The spans recorded so far and the pending reads.
* `Block.scan`: The scan of a whole block.
* `Scan.spans`: The spans of one register.
-/

namespace RegisterColoring

variable {M : Machine}

/-- The state of a backward scan. -/
structure Scan (M : Machine) where
  /-- The written registers with the spans of the values, in the order of the code. -/
  writes : List (Register M × Span)
  /-- The registers read below and not written between, with their last reads. -/
  pending : List (Register M × Nat)

namespace Scan

def empty : Scan M :=
  ⟨[], []⟩

/-- The last read of a register that aliases `r`. -/
def lastRead? (s : Scan M) (r : Register M) : Option Nat :=
  ((s.pending.filter fun entry => entry.1.aliases r).map Prod.snd).max?

/-- Register `r` is written at `index`. -/
def write (index : Nat) (s : Scan M) (r : Register M) : Scan M :=
  { writes := (r, ⟨index, (s.lastRead? r).getD index⟩) :: s.writes
    pending := s.pending.filter fun entry => !entry.1.aliases r }

/-- Register `r` is read at `index`. -/
def read (index : Nat) (s : Scan M) (r : Register M) : Scan M :=
  if (s.pending.lookup r).isSome then s else { s with pending := (r, index) :: s.pending }

/-- Pass an instruction: above it, its results are not needed and its operands are. -/
def instr (index : Nat) (i : Instr M) (s : Scan M) : Scan M :=
  i.reads.foldl (read index) (i.defs.foldl (write index) s)

/-- The spans of a register in the order of the code, the one it is live in with first. -/
def spans (s : Scan M) (r : Register M) : List Span :=
  ((s.pending.lookup r).map (Span.mk 0)).toList
    ++ s.writes.filterMap fun (w, span) => if w = r then some span else none

/-- Register `r` is read before it is written. -/
def exposes (s : Scan M) (r : Register M) : Bool :=
  (s.pending.lookup r).isSome

/-- Register `r` is written. -/
def defines (s : Scan M) (r : Register M) : Bool :=
  (s.writes.lookup r).isSome

/-- Every register that the scan met. -/
def registers (s : Scan M) : List (Register M) :=
  s.pending.map Prod.fst ++ s.writes.map Prod.fst

end Scan

/-- Scan instructions of which the first has number `index`. -/
def scanCode (index : Nat) : List (Instr M) → Scan M
  | [] => .empty
  | i :: rest => (scanCode (index + 1) rest).instr index i

/-- Scan a block up to and including its inputs. -/
def Block.scan (b : Block M) : Scan M :=
  (b.inputs.map Register.virtual).foldl (Scan.write 0) (scanCode 0 b.code)

end RegisterColoring
