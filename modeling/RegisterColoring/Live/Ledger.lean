import RegisterColoring.Live.Scan

/-!
# Ranges of Physical Registers

Registers of one family are windows on the same storage, so their ranges are
kept in one list, under the widest of them that has been written so far. Writes
are filed in the order in which the scans meet them: block by block, and each
block from its end. When a register is written that is wider than those before,
the list of its family moves under it.

## Main definitions

* `Ledger`: Lists of ranges by the registers that they are kept under.
* `Ledger.key`: Bring a family together under its widest register.
* `Ledger.file`: Add the range of a write.
* `ledgerOf`: The ranges of all writes that scans have met.
-/

namespace RegisterColoring

variable {M : Machine}

/-- Ranges by the physical registers that they are kept under, in the order of registers. -/
abbrev Ledger (M : Machine) :=
  List (M.Reg × List LiveRange)

/-- The widest register of a family, starting from `p`, among the given ones. -/
def widest (written : List M.Reg) (p : M.Reg) : M.Reg :=
  written.foldl (fun w q => if Machine.contains q w then q else w) p

namespace Ledger

/-- The registers that ranges are kept under. -/
def keys (ledger : Ledger M) : List M.Reg :=
  ledger.map Prod.fst

/-- Put ranges behind those under `key`, or in its place if there are none. -/
def add (key : M.Reg) (ranges : List LiveRange) : Ledger M → Ledger M
  | [] => [(key, ranges)]
  | (q, kept) :: rest =>
      if Machine.regBelow key q then (key, ranges) :: (q, kept) :: rest
      else if Machine.regBelow q key then (q, kept) :: add key ranges rest
      else (q, kept ++ ranges) :: rest

/-- Take what is kept under `q` and put it under `key`. -/
def move (key : M.Reg) (ledger : Ledger M) (q : M.Reg) : Ledger M :=
  match ledger.lookup q with
  | none => ledger
  | some kept => add key kept (ledger.filter fun entry => decide (entry.1 ≠ q))

/-- The registers of the family of `p` that ranges are kept under. -/
def family (ledger : Ledger M) (p : M.Reg) : List M.Reg :=
  ledger.keys.filter fun q => Machine.aliases q p

/-- The widest register of the family of `p`, and the ledger with all that is
    kept for the family under this register. -/
def key (ledger : Ledger M) (p : M.Reg) : M.Reg × Ledger M :=
  let wide := widest (ledger.family p) p
  let others := (ledger.family p).filter fun q => decide (q ≠ wide)
  (wide, others.foldl (move wide) ledger)

/-- Add the range of a write to `p`. -/
def file (ledger : Ledger M) (p : M.Reg) (range : LiveRange) : Ledger M :=
  let (wide, gathered) := ledger.key p
  gathered.add wide [range]

/-- What is kept, with the ranges of each register ascending and each of them once. -/
def entries (ledger : Ledger M) : List (Register M × List LiveRange) :=
  ledger.map fun (key, ranges) => (.physical key, ascending LiveRange.before ranges)

end Ledger

/-- The writes of physical registers in block `b`, as the scan has met them. -/
def Scan.filings (b : Nat) (s : Scan M) : List (M.Reg × LiveRange) :=
  s.writes.reverse.filterMap fun (r, span) => r.physical?.map fun p => (p, span.inBlock b)

/-- The writes of physical registers in all blocks, in the order of the scans. -/
def filings (scans : List (Scan M)) : List (M.Reg × LiveRange) :=
  scans.zipIdx.flatMap fun (s, b) => s.filings b

/-- The ranges of all physical registers. -/
def ledgerOf (scans : List (Scan M)) : Ledger M :=
  (filings scans).foldl (fun ledger (p, range) => ledger.file p range) []

end RegisterColoring
