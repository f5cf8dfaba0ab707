import RegisterColoring.Evaluation

/-!
# Runs Under an Interpretation

What a function without block inputs does on a machine of which little is known. Every
register and every frame slot holds a value from the start. An instruction computes its
results from the values of its operands, and a terminator also decides from them where
control goes. How it does either is left to an interpretation of the opcodes; only saves
and reloads are fixed, they move a value to and from a slot.

A run keeps the blocks that it has entered, the latest first. It never fails to go on: once
the function has returned, or control has left a block in no known direction, the run stays
where it is.

## Main definitions

* `State`: The values of registers and frame slots.
* `Interpretation`: What opcodes compute and decide.
* `Instr.perform`: What an instruction does to a state.
* `Point`: How far a run has come.
* `Function.step`, `Function.steps`: One instruction, and a number of them.
* `Function.Visits`, `Function.Yields`: The blocks a run enters and the values it returns.
-/

namespace RegisterColoring

variable {M : Machine} {V : Type}

/-- The values of all registers and frame slots. -/
structure State (M : Machine) (V : Type) where
  regs : Register M → V
  slots : Nat → V

/-- Where control goes after a terminator. -/
inductive Choice where
  /-- On to the next instruction. -/
  | next
  /-- To one of the blocks that the terminator refers to, by position. -/
  | branch (k : Nat)
  /-- Out of the function, with the values of the operands. -/
  | leave
deriving DecidableEq, Repr

/-- A meaning of operands and opcodes. -/
structure Interpretation (M : Machine) (V : Type) where
  /-- The value of an operand that is not a register. -/
  literal : Operand M → V
  /-- The value of a result, by position, from the values of the operands. -/
  result : Op M → List V → Nat → V
  /-- Where a terminator goes, from the values of its operands. -/
  choose : Op M → List V → Choice

namespace State

def setReg (s : State M V) (r : Register M) (x : V) : State M V :=
  { s with regs := fun q => if q = r then x else s.regs q }

def setSlot (s : State M V) (k : Nat) (x : V) : State M V :=
  { s with slots := fun j => if j = k then x else s.slots j }

/-- Write registers one after the other. -/
def setRegs (s : State M V) (writes : List (Register M × V)) : State M V :=
  writes.foldl (fun s (r, x) => s.setReg r x) s

def value (s : State M V) (I : Interpretation M V) : Operand M → V
  | .reg r => s.regs r
  | u => I.literal u

end State

namespace Instr

/-- The values of the operands. -/
def values (i : Instr M) (I : Interpretation M V) (s : State M V) : List V :=
  i.uses.map (s.value I)

/-- The value of a result, by position. A reload takes it from its slot. -/
def result (i : Instr M) (I : Interpretation M V) (s : State M V) (n : Nat) : V :=
  match i.op, i.slot? with
  | .common .reload, some k => s.slots k
  | _, _ => I.result i.op (i.values I s) n

/-- The slot that a save writes, and the value that it writes there. -/
def stored? (i : Instr M) (I : Interpretation M V) (s : State M V) : Option (Nat × V) :=
  match i.op, i.slot?, (i.values I s)[1]? with
  | .common .save, some k, some x => some (k, x)
  | _, _, _ => none

/-- The registers that an instruction writes, with their new values. -/
def writes (i : Instr M) (I : Interpretation M V) (s : State M V) : List (Register M × V) :=
  i.defs.zipIdx.map fun (r, n) => (r, i.result I s n)

/-- The state after an instruction. All operands are read before anything is written. -/
def perform (i : Instr M) (I : Interpretation M V) (s : State M V) : State M V :=
  match i.stored? I s with
  | some (k, x) => (s.setRegs (i.writes I s)).setSlot k x
  | none => s.setRegs (i.writes I s)

end Instr

/-- How far a run has come, with the blocks entered so far. -/
inductive Point (M : Machine) (V : Type) where
  | running (trail : List Nat) (rest : List (Instr M)) (s : State M V)
  | returned (trail : List Nat) (values : List V)
  | stuck (trail : List Nat)

def Point.trail : Point M V → List Nat
  | running trail _ _ => trail
  | returned trail _ => trail
  | stuck trail => trail

namespace Function

/-- Go to the start of a block. -/
def enter (f : Function M) (trail : List Nat) (s : State M V) (b : Nat) : Point M V :=
  match f.blocks[b]? with
  | some block => .running (b :: trail) block.code s
  | none => .stuck trail

/-- Go where a terminator has decided. -/
def follow (f : Function M) (I : Interpretation M V) (trail : List Nat) (i : Instr M)
    (rest : List (Instr M)) (s : State M V) : Point M V :=
  match I.choose i.op (i.values I s) with
  | .next => .running trail rest (i.perform I s)
  | .branch k =>
      match i.references[k]? with
      | some b => f.enter trail (i.perform I s) b
      | none => .stuck trail
  | .leave => .returned trail (i.values I s)

/-- Run one instruction. -/
def step (f : Function M) (I : Interpretation M V) : Point M V → Point M V
  | .running trail [] _ => .stuck trail
  | .running trail (i :: rest) s =>
      if i.isTerminator then f.follow I trail i rest s
      else .running trail rest (i.perform I s)
  | p => p

/-- Run a number of instructions. -/
def steps (f : Function M) (I : Interpretation M V) : Nat → Point M V → Point M V
  | 0, p => p
  | n + 1, p => f.steps I n (f.step I p)

/-- The point after `n` instructions from the entry block. -/
def pointAfter (f : Function M) (I : Interpretation M V) (s : State M V) (n : Nat) : Point M V :=
  f.steps I n (f.enter [] s 0)

/-- The run enters the blocks of `trail`, the latest first. -/
def Visits (f : Function M) (I : Interpretation M V) (s : State M V) (trail : List Nat) : Prop :=
  ∃ n, trail <:+ (f.pointAfter I s n).trail

/-- The run returns the given values. -/
def Yields (f : Function M) (I : Interpretation M V) (s : State M V) (values : List V) : Prop :=
  ∃ n trail, f.pointAfter I s n = .returned trail values

theorem steps_succ (f : Function M) (I : Interpretation M V) (n : Nat) (p : Point M V) :
    f.steps I (n + 1) p = f.steps I n (f.step I p) :=
  rfl

theorem steps_add (f : Function M) (I : Interpretation M V) (m n : Nat) (p : Point M V) :
    f.steps I (m + n) p = f.steps I n (f.steps I m p) := by
  induction m generalizing p with
  | zero => rw [Nat.zero_add]; rfl
  | succ m ih =>
      rw [show m + 1 + n = m + n + 1 by omega]
      exact ih (f.step I p)

end Function

end RegisterColoring
