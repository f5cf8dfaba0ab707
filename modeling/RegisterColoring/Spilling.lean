import RegisterColoring.Coloring
import RegisterColoring.Supply

/-!
# Spilling

When coloring is stuck, one register moves to a slot in the frame. The register
to spill is the one with the highest cost among the blamed nodes: how often its
node was blamed, times the instructions it is live across. The registers are gone
through in order, so that of equal costs the lowest register counts.

A spilled register is saved after each write and reloaded, into a fresh
register, before each instruction that reads it. The trailing terminators have
to stay together, so what they need is reloaded before all of them; nothing is
saved among them.

## Main definitions

* `spillable`, `dearest?`: The registers to choose from, and the choice.
* `selectSpill`: The register to spill.
* `spillBlock`: Save and reload a register in a block.
* `Function.spill`: Move a register to a frame slot.
-/

namespace RegisterColoring

variable {M : Machine}

/-- Registers with the counts of their nodes are ordered by register, then by count. -/
def spillableBefore (a b : VReg M × Nat) : Bool :=
  a.1.before b.1 || (decide (a.1 = b.1) && below a.2 b.2)

/-- The virtual registers of the blamed nodes with the counts of the nodes, without those
    whose ids are excluded, in order. -/
def spillable (g : Interference M) (blames : List (Nat × Nat)) (excluded : List Nat) :
    List (VReg M × Nat) :=
  inOrder spillableBefore (blames.flatMap fun (n, count) =>
    (((g.regs n).filterMap Register.virtual?).filter fun v => !excluded.contains v.id).map fun v =>
      (v, count))

/-- A register that may be spilled, and what spilling it is worth. -/
structure Candidate (M : Machine) where
  reg : VReg M
  cost : Nat

/-- The first of the registers with the highest cost. -/
def dearest? (l : Liveness M) (regs : List (VReg M × Nat)) : Option (Candidate M) :=
  regs.foldl (fun found (v, count) =>
    let next : Candidate M := ⟨v, count * extent (l.rangesOf (.virtual v))⟩
    match found with
    | none => some next
    | some best => if below best.cost next.cost then some next else some best) none

/-- The register to spill for function `name`. -/
def selectSpill (name : String) (g : Interference M) (l : Liveness M) (blames : List (Nat × Nat))
    (excluded : List Nat) : Except Error (VReg M) :=
  match blames.find? fun entry => !below entry.1 g.size with
  | some (n, _) => .error (.fault (.missingNode n))
  | none =>
      match dearest? l (spillable g blames excluded) with
      | some found => .ok found.reg
      | none => .error (.exhausted name)

/-- Load a register from a slot. -/
def reloadFrom (slot : Slot) (v : VReg M) : Instr M :=
  ⟨.common .reload, [.virtual v], [.frame slot 0]⟩

/-- Store a register in a slot. -/
def saveTo (slot : Slot) (v : VReg M) : Instr M :=
  ⟨.common .save, [], [.frame slot 0, .ofVReg v]⟩

/-- Read `w` wherever `v` is read. -/
def Instr.readInstead (v w : VReg M) (i : Instr M) : Instr M :=
  { i with uses := i.uses.map fun u => if u = .ofVReg v then .ofVReg w else u }

/-- The instruction reads `v`. -/
def Instr.readsV (i : Instr M) (v : VReg M) : Bool :=
  i.reads.contains (.virtual v)

/-- The instruction writes `v`. -/
def Instr.writesV (i : Instr M) (v : VReg M) : Bool :=
  i.defs.contains (.virtual v)

/-- Spill `v` in instructions before the trailing terminators. The result holds
    the code and the ids of the registers that were reloaded. -/
def spillBody (slot : Slot) (v : VReg M) (supply : Supply) :
    List (Instr M) → List (Instr M) × List Nat
  | [] => ([], [])
  | i :: rest =>
      let saved := if i.writesV v then [saveTo slot v] else []
      if i.readsV v then
        let w : VReg M := supply.vreg v.cls
        let (code, ids) := spillBody slot v (supply.afterRegs 1) rest
        (reloadFrom slot w :: i.readInstead v w :: (saved ++ code), w.id :: ids)
      else
        let (code, ids) := spillBody slot v supply rest
        (i :: (saved ++ code), ids)

/-- Spill `v` in the trailing terminators. The result holds the reloads, the
    terminators and the ids of the registers that were reloaded. -/
def spillRun (slot : Slot) (v : VReg M) (supply : Supply) :
    List (Instr M) → List (Instr M) × List (Instr M) × List Nat
  | [] => ([], [], [])
  | i :: rest =>
      if i.readsV v then
        let w : VReg M := supply.vreg v.cls
        let (reloads, run, ids) := spillRun slot v (supply.afterRegs 1) rest
        (reloadFrom slot w :: reloads, i.readInstead v w :: run, w.id :: ids)
      else
        let (reloads, run, ids) := spillRun slot v supply rest
        (reloads, i :: run, ids)

/-- Spill `v` in a block. -/
def spillBlock (slot : Slot) (v : VReg M) (supply : Supply) (b : Block M) : Block M × List Nat :=
  let (body, bodyIds) := spillBody slot v supply b.body
  let (reloads, run, runIds) := spillRun slot v (supply.afterRegs bodyIds.length) b.run
  ({ b with code := body ++ reloads ++ run }, bodyIds ++ runIds)

/-- Spill `v` in blocks, one after the other. -/
def spillBlocks (slot : Slot) (v : VReg M) (supply : Supply) :
    List (Block M) → List (Block M) × List Nat
  | [] => ([], [])
  | b :: rest =>
      let (block, ids) := spillBlock slot v supply b
      let (blocks, others) := spillBlocks slot v (supply.afterRegs ids.length) rest
      (block :: blocks, ids ++ others)

/-- What spilling a register changed. -/
structure Spill (M : Machine) where
  func : Function M
  supply : Supply
  slot : Slot
  /-- The ids of the registers that are reloaded. -/
  reloads : List Nat

namespace Function

/-- The first block that mentions `v` and has inputs. -/
def inputsBeside? (f : Function M) (v : VReg M) : Option Unsupported :=
  f.blocks.zipIdx.findSome? fun (b, label) =>
    if !b.inputs.isEmpty && b.registers.contains (.virtual v) then some (.spillWithInputs v.id label)
    else none

/-- Keep `v` in a fresh frame slot. -/
def spill (f : Function M) (v : VReg M) (supply : Supply) : Except Unsupported (Spill M) :=
  match f.inputsBeside? v with
  | some cause => .error cause
  | none =>
      let slot := supply.slot (Machine.spillSize v.cls)
      let taken := supply.afterSlot
      let (blocks, ids) := spillBlocks slot v taken f.blocks
      .ok ⟨{ f with blocks }, taken.afterRegs ids.length, slot, ids⟩

end Function

end RegisterColoring
