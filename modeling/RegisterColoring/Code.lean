import RegisterColoring.Register

/-!
# Code

A function is a list of blocks. A block is named by its position, the first one
is the entry. It takes inputs, which are virtual registers that every jump to
it supplies, and holds a list of instructions.

The jumps of a block stand at its end: `Block.run` is the longest run of
terminators that ends the block and `Block.body` is what precedes it. In a
terminator, the operands after a block reference, up to the next one, are the
arguments for that block's inputs. `splitBranches` reads the operands that way.

## Main definitions

* `Slot`, `Operand`, `Instr`, `Block`, `Function`: The parts of a program.
* `splitBranches`, `Instr.branches`: The blocks that an instruction refers to,
  with their arguments.
* `Block.body`, `Block.run`: A block before its trailing terminators, and those.

## Theorems

* `joinBranches_splitBranches`: Reading branches loses no operand.
* `Block.body_append_run`: A block is its body followed by its run.
-/

namespace RegisterColoring

/-- A place in the stack frame. The size is in bytes. -/
structure Slot where
  id : Nat
  size : Nat
deriving DecidableEq, Repr

/-- What an instruction reads. -/
inductive Operand (M : Machine) where
  | reg (r : Register M)
  | imm (value : Int64)
  | frame (slot : Slot) (offset : Int)
  | global (name : String)
  | block (target : Nat)
deriving DecidableEq

structure Instr (M : Machine) where
  op : Op M
  /-- The registers it writes. -/
  defs : List (Register M)
  /-- The operands it reads. -/
  uses : List (Operand M)
deriving DecidableEq

structure Block (M : Machine) where
  inputs : List (VReg M)
  code : List (Instr M)
deriving DecidableEq

structure Function (M : Machine) where
  name : String
  blocks : List (Block M)
deriving DecidableEq

/-- A block reference among the operands of an instruction, with the operands
    that follow it up to the next one. -/
structure Branch (M : Machine) where
  target : Nat
  args : List (Operand M)
deriving DecidableEq

variable {M : Machine}

namespace Operand

def reg? : Operand M → Option (Register M)
  | reg r => some r
  | _ => none

def block? : Operand M → Option Nat
  | block b => some b
  | _ => none

/-- The operand that reads a virtual register. -/
def ofVReg (v : VReg M) : Operand M :=
  reg (.virtual v)

end Operand

/-- Read one more operand in front: a block reference takes the leading operands
    as its arguments. -/
def consOperand (operand : Operand M) (rest : List (Operand M) × List (Branch M)) :
    List (Operand M) × List (Branch M) :=
  match operand with
  | .block target => ([], ⟨target, rest.1⟩ :: rest.2)
  | operand => (operand :: rest.1, rest.2)

/-- Split operands into those before the first block reference and the branches. -/
def splitBranches (operands : List (Operand M)) : List (Operand M) × List (Branch M) :=
  operands.foldr consOperand ([], [])

/-- The operands that leading operands and branches stand for. -/
def joinBranches (leading : List (Operand M)) (branches : List (Branch M)) : List (Operand M) :=
  leading ++ branches.flatMap fun branch => .block branch.target :: branch.args

theorem joinBranches_consOperand (operand : Operand M)
    (rest : List (Operand M) × List (Branch M)) :
    joinBranches (consOperand operand rest).1 (consOperand operand rest).2 =
      operand :: joinBranches rest.1 rest.2 := by
  cases operand <;> simp [consOperand, joinBranches]

theorem joinBranches_splitBranches (operands : List (Operand M)) :
    joinBranches (splitBranches operands).1 (splitBranches operands).2 = operands := by
  induction operands with
  | nil => rfl
  | cons operand rest ih =>
      have step : splitBranches (operand :: rest) = consOperand operand (splitBranches rest) := rfl
      rw [step, joinBranches_consOperand, ih]

namespace Instr

def isTerminator (i : Instr M) : Bool :=
  i.op.isTerminator

/-- The registers it reads, in order. -/
def reads (i : Instr M) : List (Register M) :=
  i.uses.filterMap Operand.reg?

/-- Every register it mentions, the written ones first. -/
def registers (i : Instr M) : List (Register M) :=
  i.defs ++ i.reads

/-- The blocks it refers to, in order. -/
def references (i : Instr M) : List Nat :=
  i.uses.filterMap Operand.block?

/-- The operands before its first block reference. -/
def leading (i : Instr M) : List (Operand M) :=
  (splitBranches i.uses).1

/-- The blocks it refers to, with their arguments. -/
def branches (i : Instr M) : List (Branch M) :=
  (splitBranches i.uses).2

/-- The pairs of a written and a read register that its opcode ties together. -/
def ties (i : Instr M) : List (Register M × Register M) :=
  i.op.tied.filterMap fun (d, u) =>
    match i.defs[d]?, i.uses[u]?.bind Operand.reg? with
    | some written, some read => some (written, read)
    | _, _ => none

end Instr

/-- Put one more element in front of a split list: it joins the run if nothing
    stands between them. -/
def consTrailing {α : Type} (p : α → Bool) (a : α) (rest : List α × List α) : List α × List α :=
  if rest.1.isEmpty && p a then ([], a :: rest.2) else (a :: rest.1, rest.2)

/-- Split a list into the part before the longest run of `p` that ends it, and
    that run. -/
def splitTrailing {α : Type} (p : α → Bool) (l : List α) : List α × List α :=
  l.foldr (consTrailing p) ([], [])

theorem splitTrailing_cons {α : Type} (p : α → Bool) (a : α) (l : List α) :
    splitTrailing p (a :: l) = consTrailing p a (splitTrailing p l) :=
  rfl

theorem splitTrailing_append {α : Type} (p : α → Bool) (l : List α) :
    (splitTrailing p l).1 ++ (splitTrailing p l).2 = l := by
  induction l with
  | nil => rfl
  | cons a l ih =>
      rw [splitTrailing_cons, consTrailing]
      split
      · rename_i h
        have hbody : (splitTrailing p l).1 = [] :=
          List.isEmpty_iff.mp ((Bool.and_eq_true_iff.mp h).1)
        rw [hbody, List.nil_append] at ih
        rw [List.nil_append, ih]
      · rw [List.cons_append, ih]

theorem splitTrailing_run {α : Type} {p : α → Bool} {l : List α} {a : α}
    (h : a ∈ (splitTrailing p l).2) : p a = true := by
  induction l with
  | nil => exact absurd h (by simp [splitTrailing])
  | cons b l ih =>
      rw [splitTrailing_cons, consTrailing] at h
      split at h
      · rename_i hb
        rcases List.mem_cons.mp h with rfl | hl
        · exact (Bool.and_eq_true_iff.mp hb).2
        · exact ih hl
      · exact ih h

namespace Block

/-- The index of the last instruction, and 0 in an empty block. -/
def lastIndex (b : Block M) : Nat :=
  b.code.length - 1

/-- The instructions before the trailing run of terminators. -/
def body (b : Block M) : List (Instr M) :=
  (splitTrailing Instr.isTerminator b.code).1

/-- The longest run of terminators that ends the block. -/
def run (b : Block M) : List (Instr M) :=
  (splitTrailing Instr.isTerminator b.code).2

/-- The index of the first instruction of the trailing run. -/
def runStart (b : Block M) : Nat :=
  b.body.length

theorem body_append_run (b : Block M) : b.body ++ b.run = b.code :=
  splitTrailing_append Instr.isTerminator b.code

theorem isTerminator_of_mem_run {b : Block M} {i : Instr M} (h : i ∈ b.run) :
    i.isTerminator = true :=
  splitTrailing_run h

/-- Every register that the block mentions. -/
def registers (b : Block M) : List (Register M) :=
  b.inputs.map .virtual ++ b.code.flatMap Instr.registers

end Block

namespace Function

/-- The number of blocks. -/
def size (f : Function M) : Nat :=
  f.blocks.length

/-- The inputs of a block. A block that does not exist has none. -/
def inputsOf (f : Function M) (b : Nat) : List (VReg M) :=
  match f.blocks[b]? with
  | some block => block.inputs
  | none => []

def instructions (f : Function M) : List (Instr M) :=
  f.blocks.flatMap Block.code

/-- Every register that the function mentions. -/
def registers (f : Function M) : List (Register M) :=
  f.blocks.flatMap Block.registers

/-- There is a virtual register to place. -/
def hasVirtual (f : Function M) : Bool :=
  f.registers.any Register.isVirtual

end Function

end RegisterColoring
