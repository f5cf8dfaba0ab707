import RegisterColoring.Code

/-!
# Running Code

What a function computes, as far as it keeps to copies, additions, subtractions,
multiplications, saves, reloads, jumps and returns on 64-bit words that wrap
around. Everything starts unwritten, and reading what was not written is a
failure, like any opcode or operand that this machine does not know.

A jump reads all its operands first and then writes the arguments to the inputs
of its target, so the arguments see the values from before the jump. A
conditional jump goes to its first target if the condition is not zero and to its
second target otherwise; without a second target, the next instruction follows.

## Main definitions

* `Store`: The values of registers and frame slots.
* `Instr.effect?`: What an instruction does to a store.
* `Function.runFor`: Run a number of instructions.
* `Function.Returns`: A run that ends with a value.

## Theorems

* `runFor_mono`: More steps keep a result.
* `Returns.unique`: A function returns at most one value.
-/

namespace RegisterColoring

variable {M : Machine}

/-- The values of the registers and frame slots that have been written. -/
structure Store (M : Machine) where
  regs : Register M → Option Int64
  slots : Nat → Option Int64

namespace Store

/-- Nothing has been written. -/
def empty : Store M :=
  ⟨fun _ => none, fun _ => none⟩

def setReg (s : Store M) (r : Register M) (x : Int64) : Store M :=
  { s with regs := fun q => if q = r then some x else s.regs q }

def setSlot (s : Store M) (k : Nat) (x : Int64) : Store M :=
  { s with slots := fun j => if j = k then some x else s.slots j }

/-- The value of a register or a constant. -/
def value? (s : Store M) : Operand M → Option Int64
  | .reg r => s.regs r
  | .imm x => some x
  | _ => none

/-- Write arguments to inputs. -/
def setInputs (s : Store M) (inputs : List (VReg M)) (args : List Int64) : Store M :=
  (inputs.zip args).foldl (fun s (v, x) => s.setReg (.virtual v) x) s

end Store

/-- What follows an instruction. -/
inductive Effect (M : Machine) where
  /-- The next instruction. -/
  | next (s : Store M)
  /-- The first instruction of a block. -/
  | enter (s : Store M) (block : Nat)
  /-- Nothing: the function returns a value. -/
  | done (x : Int64)

namespace Instr

/-- The value of an operand, by position. -/
def operand? (i : Instr M) (s : Store M) (k : Nat) : Option Int64 :=
  i.uses[k]?.bind s.value?

/-- The frame slot that the first operand names. -/
def slot? (i : Instr M) : Option Nat :=
  match i.uses with
  | .frame slot _ :: _ => some slot.id
  | _ => none

/-- Write a value to the first result. -/
def write? (i : Instr M) (s : Store M) (x : Int64) : Option (Effect M) :=
  i.defs.head?.map fun r => .next (s.setReg r x)

/-- Compute with the first two operands. -/
def compute? (i : Instr M) (s : Store M) (f : Int64 → Int64 → Int64) : Option (Effect M) := do
  let x ← i.operand? s 0
  let y ← i.operand? s 1
  i.write? s (f x y)

/-- The targets of a jump with the values of their arguments. -/
def targets? (i : Instr M) (s : Store M) : Option (List (Nat × List Int64)) :=
  i.branches.mapM fun branch => (branch.args.mapM s.value?).map fun args => (branch.target, args)

/-- Go to a target, or on to the next instruction if there is none. -/
def goTo? (f : Function M) (s : Store M) : Option (Nat × List Int64) → Option (Effect M)
  | none => some (.next s)
  | some (target, args) =>
      f.blocks[target]?.map fun block => .enter (s.setInputs block.inputs args) target

/-- A jump. All its operands are read, whichever way it goes. -/
def jump? (f : Function M) (i : Instr M) (s : Store M)
    (choose : List Int64 → List (Nat × List Int64) → Option (Option (Nat × List Int64))) :
    Option (Effect M) := do
  let leading ← i.leading.mapM s.value?
  let targets ← i.targets? s
  let taken ← choose leading targets
  goTo? f s taken

/-- The way of a conditional jump, which needs a condition. -/
def branchOn? (leading : List Int64) (targets : List (Nat × List Int64)) :
    Option (Option (Nat × List Int64)) :=
  leading.head?.map fun condition => if condition = 0 then targets[1]? else targets[0]?

/-- What an instruction does, unless it fails. -/
def effect? (f : Function M) (i : Instr M) (s : Store M) : Option (Effect M) :=
  match i.op with
  | .common .copy => (i.operand? s 0).bind (i.write? s)
  | .common .add => i.compute? s (· + ·)
  | .common .sub => i.compute? s (· - ·)
  | .common .mul => i.compute? s (· * ·)
  | .common .save => do
      let k ← i.slot?
      let x ← i.operand? s 1
      return .next (s.setSlot k x)
  | .common .reload => do
      let k ← i.slot?
      let x ← s.slots k
      i.write? s x
  | .common .ret => (i.operand? s 0).map .done
  | .common .jmp => i.jump? f s fun _ targets => some targets.head?
  | .common .jnz => i.jump? f s branchOn?
  | _ => none

end Instr

namespace Function

/-- The instructions of a block. -/
def codeOf (f : Function M) (b : Nat) : List (Instr M) :=
  match f.blocks[b]? with
  | some block => block.code
  | none => []

/-- Run at most `steps` instructions of the given code and of what follows it. The
    result is the returned value; there is none if the run fails, leaves a block
    at its end, or takes more steps. -/
def runFor (f : Function M) : (steps : Nat) → Store M → List (Instr M) → Option Int64
  | 0, _, _ => none
  | _ + 1, _, [] => none
  | steps + 1, s, i :: rest =>
      match i.effect? f s with
      | none => none
      | some (.next t) => f.runFor steps t rest
      | some (.enter t b) => f.runFor steps t (f.codeOf b)
      | some (.done x) => some x

/-- Some run from the entry block returns `x`. -/
def Returns (f : Function M) (x : Int64) : Prop :=
  ∃ steps, f.runFor steps .empty (f.codeOf 0) = some x

/-- More steps keep a result. -/
theorem runFor_mono {f : Function M} {n k : Nat} {s : Store M} {code : List (Instr M)} {x : Int64}
    (h : f.runFor n s code = some x) : f.runFor (n + k) s code = some x := by
  induction n generalizing s code with
  | zero => exact absurd h (by simp [runFor])
  | succ n ih =>
      rw [show n + 1 + k = n + k + 1 by omega]
      cases code with
      | nil => exact absurd h (by simp [runFor])
      | cons i rest =>
          simp only [runFor] at h ⊢
          cases he : i.effect? f s with
          | none => rw [he] at h; exact absurd h (by simp)
          | some effect =>
              rw [he] at h
              cases effect with
              | next t => exact ih h
              | enter t b => exact ih h
              | done y => exact h

/-- A function returns at most one value. -/
theorem Returns.unique {f : Function M} {x y : Int64} (hx : f.Returns x) (hy : f.Returns y) :
    x = y := by
  obtain ⟨n, hn⟩ := hx
  obtain ⟨m, hm⟩ := hy
  -- Give both runs the steps of the other, so that they are the same run.
  have hn' := runFor_mono (k := m) hn
  have hm' := runFor_mono (k := n) hm
  rw [Nat.add_comm m n, hn'] at hm'
  exact Option.some.inj hm'

end Function

end RegisterColoring
