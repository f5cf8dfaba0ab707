import RegisterColoring.Proofs.PlacedRuns
import RegisterColoring.Proofs.RenumberedRounds
import RegisterColoring.Proofs.SharedStorage
import RegisterColoring.Proofs.SpilledRuns

/-!
# Code with Open Slots

Spilling draws a frame slot, and which one depends on the supply. Two allocations that draw
from different supplies make the same code otherwise, so both fill in one list of pieces: the
instructions that were there before any spill, and the saves and reloads of the first, second
and later slot of the allocation, whatever the ids of these slots are.

While an allocation is under way, its virtual registers differ as well. `Function.Outlined`
says that two functions fill the same pieces, each from its own first slot, and that the
registers of the second are those of the first renumbered.

## Main definitions

* `Piece`: An instruction, or a save or reload in a slot by its number.
* `Piece.fill`: The instruction, if the slots are counted from a given id.
* `Supply.InStep`: Two supplies hand out the same registers up to a renumbering.
* `Function.Outlined`: Two functions that fill the same pieces.

## Theorems

* `Function.length_reloads`: A spill draws a register for each instruction that reads.
* `Function.Outlined.renumbered`: Functions that fill the same pieces are renumbered.
* `Function.Outlined.spill`: Spilling keeps functions outlined.
* `Function.Outlined.place`: Placing removes the difference in registers.
-/

namespace RegisterColoring

variable {M : Machine} {ρ : Renumbering}

/-- The slot with number `k` of an allocation whose first slot has id `start`. -/
def slotAt (start k size : Nat) : Slot :=
  ⟨(start + k) % Supply.capacity, size⟩

/-- An instruction that an allocation found, or one that it added for its slot with number
    `k`. -/
inductive Piece (M : Machine) where
  | own (i : Instr M)
  | save (k size : Nat) (r : Register M)
  | reload (k size : Nat) (r : Register M)

/-- What an operand is besides a register. -/
def Operand.fixed? : Operand M → Option (Operand M)
  | .reg _ => none
  | u => some u

/-- An instruction without its registers. -/
def Instr.shape (i : Instr M) : Op M × Nat × List (Option (Operand M)) :=
  (i.op, i.defs.length, i.uses.map Operand.fixed?)

namespace Piece

/-- The instruction, if slots are counted from `start`. -/
def fill (start : Nat) : Piece M → Instr M
  | own i => i
  | save k size r => ⟨.common .save, [], [.frame (slotAt start k size) 0, .reg r]⟩
  | reload k size r => ⟨.common .reload, [r], [.frame (slotAt start k size) 0]⟩

def own? : Piece M → Option (Instr M)
  | own i => some i
  | _ => none

def mapRegs (φ : Register M → Register M) : Piece M → Piece M
  | own i => own (i.mapRegs φ)
  | save k size r => save k size (φ r)
  | reload k size r => reload k size (φ r)

/-- Read `w` wherever `v` is read. -/
def readInstead (v w : VReg M) : Piece M → Piece M
  | own i => own (i.readInstead v w)
  | save k size r => save k size (if r = .virtual v then .virtual w else r)
  | reload k size r => reload k size r

/-- The shapes of the instructions that were found. -/
def shapes (pieces : List (Piece M)) : List (Op M × Nat × List (Option (Operand M))) :=
  (pieces.filterMap own?).map Instr.shape

variable (p : Piece M) (start : Nat)

theorem fill_mapRegs (φ : Register M → Register M) :
    (p.mapRegs φ).fill start = (p.fill start).mapRegs φ := by
  cases p <;> rfl

theorem registers_fill (first : Nat) : (p.fill start).registers = (p.fill first).registers := by
  cases p <;> rfl

theorem fill_readInstead (v w : VReg M) :
    (p.readInstead v w).fill start = (p.fill start).readInstead v w := by
  cases p with
  | own i => rfl
  | reload k size r => rfl
  | save k size r =>
      by_cases hr : r = .virtual v <;>
        simp [readInstead, fill, Instr.readInstead, Operand.ofVReg, hr]

end Piece

theorem Operand.fixed_rename (φ : Register M → Register M) :
    (fixed? ∘ rename φ : Operand M → Option (Operand M)) = fixed? := by
  funext u
  cases u <;> rfl

namespace Instr

variable (i : Instr M) {φ ψ : Register M → Register M}

theorem mapRegs_eq (φ : Register M → Register M) :
    i.mapRegs φ = ⟨i.op, i.defs.map φ, i.uses.map (Operand.rename φ)⟩ := by
  rw [← uses_mapRegs]
  rfl

theorem mapRegs_mapRegs : (i.mapRegs φ).mapRegs ψ = i.mapRegs (ψ ∘ φ) := by
  have hrename : (Operand.rename ψ ∘ Operand.rename φ : Operand M → Operand M) =
      Operand.rename (ψ ∘ φ) := by
    funext u
    cases u <;> rfl
  simp only [mapRegs_eq, List.map_map, hrename]

/-- Only the registers that are mentioned count. -/
theorem mapRegs_congr (h : ∀ r ∈ i.registers, φ r = ψ r) : i.mapRegs φ = i.mapRegs ψ := by
  have hdefs : i.defs.map φ = i.defs.map ψ :=
    List.map_congr_left fun r hr => h r (List.mem_append_left _ hr)
  have huses : i.uses.map (Operand.rename φ) = i.uses.map (Operand.rename ψ) := by
    refine List.map_congr_left fun u hu => ?_
    cases u with
    | reg r => exact congrArg Operand.reg (h r (List.mem_append_right _ (mem_reads.mpr hu)))
    | _ => rfl
  rw [mapRegs_eq, mapRegs_eq, hdefs, huses]

theorem shape_mapRegs (φ : Register M → Register M) : (i.mapRegs φ).shape = i.shape := by
  simp only [shape, mapRegs_eq, List.length_map, List.map_map, Operand.fixed_rename]

theorem shape_readInstead (v w : VReg M) : (i.readInstead v w).shape = i.shape := by
  simp only [shape, uses_readInstead, List.map_map, Operand.fixed_rename]
  rfl

theorem renumbered_mapRegs (ρ : Renumbering) : i.Renumbered ρ (i.mapRegs ρ.reg) where
  op := rfl
  defs := rfl
  regs := by
    rw [uses_mapRegs, List.map_map]
    refine List.map_congr_left fun u _ => ?_
    cases u <;> rfl
  blocks := by
    rw [uses_mapRegs, List.map_map]
    refine List.map_congr_left fun u _ => ?_
    cases u <;> rfl

/-- Reading another register commutes with a renumbering. -/
theorem readInstead_mapRegs (ρ : Renumbering) (v w : VReg M) :
    (i.mapRegs ρ.reg).readInstead (ρ.vreg v) (ρ.vreg w) = (i.readInstead v w).mapRegs ρ.reg := by
  have huses : ((i.mapRegs ρ.reg).readInstead (ρ.vreg v) (ρ.vreg w)).uses =
      ((i.readInstead v w).mapRegs ρ.reg).uses := by
    rw [uses_readInstead, uses_mapRegs, uses_mapRegs, uses_readInstead, List.map_map, List.map_map]
    refine List.map_congr_left fun u _ => ?_
    cases u with
    | reg r =>
        have hr : ρ.reg r = .virtual (ρ.vreg v) ↔ r = .virtual v := ρ.reg_inj (q := .virtual v)
        simp only [Function.comp_apply, Operand.rename, hr, apply_ite ρ.reg]
        rfl
    | _ => rfl
  have hfields : ∀ i : Instr M, i = ⟨i.op, i.defs, i.uses⟩ := fun _ => rfl
  rw [hfields ((i.mapRegs ρ.reg).readInstead _ _), huses]
  rfl

end Instr

namespace Instr.Renumbered

variable {i j : Instr M} {v : VReg M}

theorem readsV (h : i.Renumbered ρ j) : j.readsV (ρ.vreg v) = i.readsV v := by
  rw [Bool.eq_iff_iff, Instr.readsV_iff, Instr.readsV_iff, h.reads,
    ρ.mem_map_reg]

theorem writesV (h : i.Renumbered ρ j) : j.writesV (ρ.vreg v) = i.writesV v := by
  rw [Bool.eq_iff_iff, Instr.writesV_iff, Instr.writesV_iff, h.defs,
    ρ.mem_map_reg]

end Instr.Renumbered

/-- The next `n` registers of two supplies are the same up to a renumbering. -/
def Supply.InStep (supply : Supply) (ρ : Renumbering) (n : Nat) (supply' : Supply) : Prop :=
  ∀ j < n, supply'.regId j = ρ.num (supply.regId j)

namespace Supply.InStep

variable {supply supply' : Supply} {m n : Nat}

theorem vreg (h : supply.InStep ρ n supply') (hn : 0 < n) (c : M.Class) :
    supply'.vreg c = ρ.vreg (supply.vreg c) := by
  simp only [Supply.vreg, Renumbering.vreg, h 0 hn]

theorem afterRegs (h : supply.InStep ρ (m + n) supply') :
    (supply.afterRegs m).InStep ρ n (supply'.afterRegs m) := by
  intro j hj
  rw [Supply.regId_afterRegs, Supply.regId_afterRegs]
  exact h (m + j) (by omega)

theorem ids (h : supply.InStep ρ n supply') : supply'.ids n = (supply.ids n).map ρ.num := by
  rw [Supply.ids, Supply.ids, List.map_map]
  exact List.map_congr_left fun j hj => h j (List.mem_range.mp hj)

end Supply.InStep

section Counting

variable (slot : Slot) (v : VReg M)

theorem length_spillBody (supply : Supply) (code : List (Instr M)) :
    (spillBody slot v supply code).2.length = code.countP (·.readsV v) := by
  induction code generalizing supply with
  | nil => rfl
  | cons i code ih =>
      by_cases hread : i.readsV v = true
      · simp only [spillBody, hread, if_true, List.length_cons, ih, List.countP_cons]
      · simp only [spillBody, hread, List.countP_cons]
        exact ih supply

theorem length_spillRun (supply : Supply) (run : List (Instr M)) :
    (spillRun slot v supply run).2.2.length = run.countP (·.readsV v) := by
  induction run generalizing supply with
  | nil => rfl
  | cons i run ih =>
      by_cases hread : i.readsV v = true
      · simp only [spillRun, hread, if_true, List.length_cons, ih, List.countP_cons]
      · simp only [spillRun, hread, List.countP_cons]
        exact ih supply

theorem length_spillBlock (supply : Supply) (b : Block M) :
    (spillBlock slot v supply b).2.length = b.code.countP (·.readsV v) := by
  simp only [spillBlock, List.length_append]
  rw [length_spillBody, length_spillRun, ← List.countP_append, Block.body_append_run]

theorem length_spillBlocks (supply : Supply) (blocks : List (Block M)) :
    (spillBlocks slot v supply blocks).2.length =
      (blocks.flatMap Block.code).countP (·.readsV v) := by
  induction blocks generalizing supply with
  | nil => rfl
  | cons b blocks ih =>
      simp only [spillBlocks, List.length_append, ih]
      rw [length_spillBlock, List.flatMap_cons, List.countP_append]

/-- A spill draws a register for each instruction that reads the spilled one. -/
theorem Function.length_reloads {f : Function M} {supply : Supply} {x : Spill M}
    (h : f.spill v supply = .ok x) :
    x.reloads.length = f.instructions.countP (·.readsV v) := by
  rw [(spill_eq_ok h).2.2.2, length_spillBlocks]
  rfl

end Counting

/-- The instruction with its registers renumbered, if slots are counted from `start`. -/
def Piece.refill (ρ : Renumbering) (start : Nat) (p : Piece M) : Instr M :=
  (p.fill start).mapRegs ρ.reg

section Spilling

variable {s t : Nat} (k size : Nat) (v : VReg M)

theorem Piece.renumbered (p : Piece M) : (p.fill s).Renumbered ρ (p.refill ρ t) := by
  cases p with
  | own i => exact i.renumbered_mapRegs ρ
  | save k size r => exact ⟨rfl, rfl, rfl, rfl⟩
  | reload k size r => exact ⟨rfl, rfl, rfl, rfl⟩

theorem Piece.refill_readInstead (w : VReg M) (p : Piece M) :
    (p.refill ρ t).readInstead (ρ.vreg v) (ρ.vreg w) = (p.readInstead v w).refill ρ t := by
  rw [refill, Instr.readInstead_mapRegs, ← fill_readInstead]
  rfl

theorem Piece.shapes_cons_readInstead (w : VReg M) (p : Piece M) (pieces : List (Piece M)) :
    shapes (p.readInstead v w :: pieces) = shapes (p :: pieces) := by
  cases p with
  | own i =>
      simp only [readInstead, shapes, List.filterMap_cons, own?, List.map_cons,
        Instr.shape_readInstead]
  | save k size r => rfl
  | reload k size r => rfl

theorem Piece.countP_refill (pieces : List (Piece M)) :
    (pieces.map (refill ρ t)).countP (·.readsV (ρ.vreg v)) =
      (pieces.map (fill s)).countP (·.readsV v) := by
  rw [List.countP_map, List.countP_map]
  refine List.countP_congr fun p _ => ?_
  rw [Function.comp_apply, Function.comp_apply, (p.renumbered (s := s)).readsV]

/-- What is saved after a piece, as pieces. -/
theorem exists_saved (ρ : Renumbering) (s t k size : Nat) (v : VReg M) (p : Piece M) :
    ∃ saved : List (Piece M), Piece.shapes saved = [] ∧
    (if (p.fill s).writesV v then [saveTo (slotAt s k size) v] else []) =
      saved.map (Piece.fill s) ∧
    (if (p.refill ρ t).writesV (ρ.vreg v) then [saveTo (slotAt t k size) (ρ.vreg v)] else []) =
      saved.map (Piece.refill ρ t) := by
  have hwrites : (p.refill ρ t).writesV (ρ.vreg v) = (p.fill s).writesV v := p.renumbered.writesV
  rw [hwrites]
  by_cases hw : (p.fill s).writesV v = true
  · exact ⟨[.save k size (.virtual v)], rfl, if_pos hw, if_pos hw⟩
  · exact ⟨[], rfl, if_neg hw, if_neg hw⟩

theorem Piece.shapes_mapRegs (φ : Register M → Register M) (pieces : List (Piece M)) :
    shapes (pieces.map (mapRegs φ)) = shapes pieces := by
  induction pieces with
  | nil => rfl
  | cons p pieces ih =>
      cases p with
      | own i =>
          simp only [shapes, List.map_cons, mapRegs, List.filterMap_cons, own?,
            Instr.shape_mapRegs] at ih ⊢
          rw [ih]
      | save k size r => exact ih
      | reload k size r => exact ih

theorem Piece.shapes_own (code : List (Instr M)) : shapes (code.map own) = code.map Instr.shape := by
  have hown : (own? ∘ own : Instr M → Option (Instr M)) = some := rfl
  rw [shapes, List.filterMap_map, hown, List.filterMap_some]

theorem Piece.shapes_append (pieces others : List (Piece M)) :
    shapes (pieces ++ others) = shapes pieces ++ shapes others := by
  simp only [shapes, List.filterMap_append, List.map_append]

theorem Piece.shapes_cons (p : Piece M) (pieces : List (Piece M)) :
    shapes (p :: pieces) = shapes [p] ++ shapes pieces :=
  shapes_append [p] pieces

/-- Spilling the code before the trailing terminators fills the same pieces in both. -/
theorem spillBody_refill {supply supply' : Supply} {pieces : List (Piece M)}
    (h : supply.InStep ρ ((pieces.map (Piece.fill s)).countP (·.readsV v)) supply') :
    ∃ made : List (Piece M), Piece.shapes made = Piece.shapes pieces ∧
      (spillBody (slotAt s k size) v supply (pieces.map (Piece.fill s))).1 =
        made.map (Piece.fill s) ∧
      (spillBody (slotAt t k size) (ρ.vreg v) supply' (pieces.map (Piece.refill ρ t))).1 =
        made.map (Piece.refill ρ t) := by
  induction pieces generalizing supply supply' with
  | nil => exact ⟨[], rfl, rfl, rfl⟩
  | cons p pieces ih =>
      have hreads : (p.refill ρ t).readsV (ρ.vreg v) = (p.fill s).readsV v := p.renumbered.readsV
      rcases exists_saved ρ s t k size v p with ⟨saved, hnone, hsaved, hsaved'⟩
      rw [List.map_cons, List.countP_cons, Nat.add_comm] at h
      by_cases hread : (p.fill s).readsV v = true
      · -- Both reload here, each into the next register of its supply.
        rw [if_pos hread] at h
        have hw : supply'.vreg (ρ.vreg v).cls = ρ.vreg (supply.vreg v.cls) := h.vreg (by omega) v.cls
        rcases ih h.afterRegs with ⟨made, hmade, hleft, hright⟩
        refine ⟨.reload k size (.virtual (supply.vreg v.cls)) ::
          p.readInstead v (supply.vreg v.cls) :: (saved ++ made), ?_, ?_, ?_⟩
        · show Piece.shapes (p.readInstead v (supply.vreg v.cls) :: (saved ++ made)) = _
          rw [Piece.shapes_cons_readInstead, Piece.shapes_cons, Piece.shapes_append, hnone, hmade,
            List.nil_append, ← Piece.shapes_cons]
        · simp only [List.map_cons, spillBody, hread, if_true, hsaved, hleft, List.map_append,
            Piece.fill_readInstead]
          rfl
        · simp only [List.map_cons, spillBody, hreads, hread, if_true, hsaved', hright,
            List.map_append, hw, Piece.refill_readInstead]
          rfl
      · -- Nothing is drawn here, so the rest starts from the same supplies.
        rw [if_neg hread, Nat.zero_add] at h
        rcases ih h with ⟨made, hmade, hleft, hright⟩
        refine ⟨p :: (saved ++ made), ?_, ?_, ?_⟩
        · rw [Piece.shapes_cons, Piece.shapes_append, hnone, hmade, List.nil_append,
            ← Piece.shapes_cons]
        · simp only [List.map_cons, spillBody, hread, hsaved, hleft, List.map_append]
          rfl
        · simp only [List.map_cons, spillBody, hreads, hread, hsaved', hright, List.map_append]
          rfl

/-- Spilling the trailing terminators fills the same pieces in both. -/
theorem spillRun_refill {supply supply' : Supply} {pieces : List (Piece M)}
    (h : supply.InStep ρ ((pieces.map (Piece.fill s)).countP (·.readsV v)) supply') :
    ∃ reloads made : List (Piece M),
      Piece.shapes reloads = [] ∧ Piece.shapes made = Piece.shapes pieces ∧
      (spillRun (slotAt s k size) v supply (pieces.map (Piece.fill s))).1 =
        reloads.map (Piece.fill s) ∧
      (spillRun (slotAt s k size) v supply (pieces.map (Piece.fill s))).2.1 =
        made.map (Piece.fill s) ∧
      (spillRun (slotAt t k size) (ρ.vreg v) supply' (pieces.map (Piece.refill ρ t))).1 =
        reloads.map (Piece.refill ρ t) ∧
      (spillRun (slotAt t k size) (ρ.vreg v) supply' (pieces.map (Piece.refill ρ t))).2.1 =
        made.map (Piece.refill ρ t) := by
  induction pieces generalizing supply supply' with
  | nil => exact ⟨[], [], rfl, rfl, rfl, rfl, rfl, rfl⟩
  | cons p pieces ih =>
      have hreads : (p.refill ρ t).readsV (ρ.vreg v) = (p.fill s).readsV v := p.renumbered.readsV
      rw [List.map_cons, List.countP_cons, Nat.add_comm] at h
      by_cases hread : (p.fill s).readsV v = true
      · rw [if_pos hread] at h
        have hw : supply'.vreg (ρ.vreg v).cls = ρ.vreg (supply.vreg v.cls) := h.vreg (by omega) v.cls
        rcases ih h.afterRegs with ⟨reloads, made, hnone, hmade, hloads, hleft, hloads', hright⟩
        -- The reload joins those in front of the run, the terminator stays in it.
        refine ⟨.reload k size (.virtual (supply.vreg v.cls)) :: reloads,
          p.readInstead v (supply.vreg v.cls) :: made, hnone, ?_, ?_, ?_, ?_, ?_⟩
        · rw [Piece.shapes_cons_readInstead, Piece.shapes_cons, hmade, ← Piece.shapes_cons]
        · simp only [List.map_cons, spillRun, hread, if_true, hloads]
          rfl
        · simp only [List.map_cons, spillRun, hread, if_true, hleft, Piece.fill_readInstead]
        · simp only [List.map_cons, spillRun, hreads, hread, if_true, hloads', hw]
          rfl
        · simp only [List.map_cons, spillRun, hreads, hread, if_true, hright, hw,
            Piece.refill_readInstead]
      · rw [if_neg hread, Nat.zero_add] at h
        rcases ih h with ⟨reloads, made, hnone, hmade, hloads, hleft, hloads', hright⟩
        refine ⟨reloads, p :: made, hnone, ?_, ?_, ?_, ?_, ?_⟩
        · rw [Piece.shapes_cons, hmade, ← Piece.shapes_cons]
        · simp only [List.map_cons, spillRun, hread]
          exact hloads
        · simp only [List.map_cons, spillRun, hread]
          exact congrArg _ hleft
        · simp only [List.map_cons, spillRun, hreads, hread]
          exact hloads'
        · simp only [List.map_cons, spillRun, hreads, hread]
          exact congrArg _ hright

/-- A block that pieces make. -/
def Piece.block (F : Piece M → Instr M) (pieces : List (Piece M)) : Block M :=
  ⟨[], pieces.map F⟩

/-- Where a list is split is known from the pieces. -/
theorem splitTrailing_map {α β : Type} (F : α → β) (p : β → Bool) (l : List α) :
    splitTrailing p (l.map F) =
      ((splitTrailing (p ∘ F) l).1.map F, (splitTrailing (p ∘ F) l).2.map F) := by
  induction l with
  | nil => rfl
  | cons a l ih =>
      rw [List.map_cons, splitTrailing_cons, splitTrailing_cons, ih, consTrailing, consTrailing,
        List.isEmpty_map, Function.comp_apply]
      split <;> rfl

/-- The pieces of a block before its trailing terminators, and those of these. -/
theorem Piece.exists_split (ρ : Renumbering) (s t : Nat) (pieces : List (Piece M)) :
    ∃ before after,
    pieces = before ++ after ∧
      (block (fill s) pieces).body = before.map (fill s) ∧
      (block (fill s) pieces).run = after.map (fill s) ∧
      (block (refill ρ t) pieces).body = before.map (refill ρ t) ∧
      (block (refill ρ t) pieces).run = after.map (refill ρ t) := by
  -- Terminators are known by their opcodes, which pieces fix.
  have hterm : (Instr.isTerminator ∘ refill ρ t : Piece M → Bool) = Instr.isTerminator ∘ fill s :=
    funext fun p => (p.renumbered (s := s)).isTerminator
  refine ⟨(splitTrailing (Instr.isTerminator ∘ fill s) pieces).1,
    (splitTrailing (Instr.isTerminator ∘ fill s) pieces).2, (splitTrailing_append _ _).symm, ?_⟩
  simp only [block, Block.body, Block.run, splitTrailing_map, hterm, and_self]

theorem spillBlock_refill {supply supply' : Supply} {pieces : List (Piece M)}
    (h : supply.InStep ρ ((pieces.map (Piece.fill s)).countP (·.readsV v)) supply') :
    ∃ made : List (Piece M), Piece.shapes made = Piece.shapes pieces ∧
      (spillBlock (slotAt s k size) v supply (Piece.block (Piece.fill s) pieces)).1 =
        Piece.block (Piece.fill s) made ∧
      (spillBlock (slotAt t k size) (ρ.vreg v) supply' (Piece.block (Piece.refill ρ t) pieces)).1 =
        Piece.block (Piece.refill ρ t) made := by
  rcases Piece.exists_split ρ s t pieces with
    ⟨before, after, hpieces, hbody, hrun, hbody', hrun'⟩
  rw [hpieces, List.map_append, List.countP_append] at h
  -- The run draws what the body left, and both bodies draw as many registers.
  have hcount : (before.map (Piece.refill ρ t)).countP (·.readsV (ρ.vreg v)) =
      (before.map (Piece.fill s)).countP (·.readsV v) := Piece.countP_refill v before
  have hfirst : supply.InStep ρ ((before.map (Piece.fill s)).countP (·.readsV v)) supply' :=
    fun j hj => h j (by omega)
  rcases spillBody_refill k size v (t := t) hfirst with ⟨made, hmade, hleft, hright⟩
  rcases spillRun_refill k size v (t := t) h.afterRegs with
    ⟨reloads, last, hnone, hlast, hloads, hend, hloads', hend'⟩
  refine ⟨made ++ reloads ++ last, ?_, ?_, ?_⟩
  · rw [Piece.shapes_append, Piece.shapes_append, hmade, hnone, hlast, List.append_nil,
      ← Piece.shapes_append, ← hpieces]
  · simp only [spillBlock, hbody, hrun, length_spillBody, hleft, hloads, hend]
    simp only [Piece.block, List.map_append]
  · simp only [spillBlock, hbody', hrun', length_spillBody, hcount, hright, hloads', hend']
    simp only [Piece.block, List.map_append]

theorem spillBlocks_refill {supply supply' : Supply} {outline : List (List (Piece M))}
    (h : supply.InStep ρ ((outline.flatten.map (Piece.fill s)).countP (·.readsV v)) supply') :
    ∃ made : List (List (Piece M)), made.map Piece.shapes = outline.map Piece.shapes ∧
      (spillBlocks (slotAt s k size) v supply (outline.map (Piece.block (Piece.fill s)))).1 =
        made.map (Piece.block (Piece.fill s)) ∧
      (spillBlocks (slotAt t k size) (ρ.vreg v) supply'
          (outline.map (Piece.block (Piece.refill ρ t)))).1 =
        made.map (Piece.block (Piece.refill ρ t)) := by
  induction outline generalizing supply supply' with
  | nil => exact ⟨[], rfl, rfl, rfl⟩
  | cons pieces outline ih =>
      rw [List.flatten_cons, List.map_append, List.countP_append] at h
      have hfirst : supply.InStep ρ ((pieces.map (Piece.fill s)).countP (·.readsV v)) supply' :=
        fun j hj => h j (by omega)
      have hcount : (pieces.map (Piece.refill ρ t)).countP (·.readsV (ρ.vreg v)) =
          (pieces.map (Piece.fill s)).countP (·.readsV v) := Piece.countP_refill v pieces
      rcases spillBlock_refill k size v (t := t) hfirst with ⟨block, hshapes, hleft, hright⟩
      rcases ih h.afterRegs with ⟨others, hothers, hleft', hright'⟩
      refine ⟨block :: others, by rw [List.map_cons, List.map_cons, hshapes, hothers], ?_, ?_⟩
      · simp only [List.map_cons, spillBlocks, length_spillBlock, hleft]
        exact congrArg _ hleft'
      · simp only [List.map_cons, spillBlocks, length_spillBlock, hright]
        simp only [Piece.block, hcount]
        exact congrArg _ hright'

end Spilling

/-- Two functions that fill the same pieces, with slots counted from `s` and from `t`. The
    registers of the second are renumbered. -/
structure Function.Outlined (ρ : Renumbering) (s t : Nat) (outline : List (List (Piece M)))
    (f g : Function M) : Prop where
  name : g.name = f.name
  left : f.blocks = outline.map (Piece.block (Piece.fill s))
  right : g.blocks = outline.map (Piece.block (Piece.refill ρ t))

namespace Function.Outlined

variable {s t : Nat} {outline : List (List (Piece M))} {f g : Function M}

theorem renumbered (h : f.Outlined ρ s t outline g) : f.Renumbered ρ g where
  name := h.name
  blocks := by
    rw [h.left, h.right, List.forall₂_map_left_iff, List.forall₂_map_right_iff, List.forall₂_same]
    refine fun pieces _ => ⟨rfl, rfl, ?_⟩
    simp only [Piece.block]
    rw [List.forall₂_map_left_iff, List.forall₂_map_right_iff, List.forall₂_same]
    exact fun p _ => p.renumbered

theorem inputs (h : f.Outlined ρ s t outline g) : ∀ b ∈ f.blocks, b.inputs = [] := by
  intro b hb
  rw [h.left] at hb
  rcases List.mem_map.mp hb with ⟨pieces, _, rfl⟩
  rfl

theorem inputs' (h : f.Outlined ρ s t outline g) : ∀ b ∈ g.blocks, b.inputs = [] := by
  intro b hb
  rw [h.right] at hb
  rcases List.mem_map.mp hb with ⟨pieces, _, rfl⟩
  rfl

theorem instructions_left (h : f.Outlined ρ s t outline g) :
    f.instructions = outline.flatten.map (Piece.fill s) := by
  rw [instructions, h.left, List.flatMap_map, List.map_flatten]
  rfl

theorem instructions_right (h : f.Outlined ρ s t outline g) :
    g.instructions = outline.flatten.map (Piece.refill ρ t) := by
  rw [instructions, h.right, List.flatMap_map, List.map_flatten]
  rfl

theorem mem_registers (h : f.Outlined ρ s t outline g) {pieces : List (Piece M)}
    (hpieces : pieces ∈ outline) {p : Piece M} (hp : p ∈ pieces) {r : Register M}
    (hr : r ∈ (p.fill s).registers) : r ∈ f.registers := by
  rw [registers, h.left, List.flatMap_map]
  refine List.mem_flatMap.mpr ⟨pieces, hpieces, List.mem_append_right _ ?_⟩
  exact List.mem_flatMap.mpr ⟨p.fill s, List.mem_map.mpr ⟨p, hp, rfl⟩, hr⟩

/-- Both functions read a register equally often. -/
theorem countP_readsV (h : f.Outlined ρ s t outline g) (v : VReg M) :
    g.instructions.countP (·.readsV (ρ.vreg v)) = f.instructions.countP (·.readsV v) := by
  rw [h.instructions_left, h.instructions_right, Piece.countP_refill]

/-- Spilling keeps functions outlined. -/
theorem spill (h : f.Outlined ρ s t outline g) {v : VReg M} {k : Nat} {supply supply' : Supply}
    (hstep : supply.InStep ρ (f.instructions.countP (·.readsV v)) supply')
    (hslots : supply.slots % Supply.capacity = (s + k) % Supply.capacity)
    (hslots' : supply'.slots % Supply.capacity = (t + k) % Supply.capacity) {x x' : Spill M}
    (hx : f.spill v supply = .ok x) (hx' : g.spill (ρ.vreg v) supply' = .ok x') :
    x.slot = slotAt s k (Machine.spillSize v.cls) ∧
      x'.slot = slotAt t k (Machine.spillSize v.cls) ∧ x'.reloads = x.reloads.map ρ.num ∧
      ∃ made, x.func.Outlined ρ s t made x'.func ∧
        made.map Piece.shapes = outline.map Piece.shapes := by
  rcases spill_eq_ok hx with ⟨hslot, _, hfunc, _⟩
  rcases spill_eq_ok hx' with ⟨hslot', _, hfunc', _⟩
  have hleft : x.slot = slotAt s k (Machine.spillSize v.cls) := by
    rw [hslot, Supply.slot, hslots, slotAt]
  have hright : x'.slot = slotAt t k (Machine.spillSize v.cls) := by
    rw [hslot', Supply.slot, hslots', slotAt]
    rfl
  refine ⟨hleft, hright, ?_, ?_⟩
  · -- The reloads are the next ids of each supply, and both draw equally many.
    rw [reloads_eq hx, reloads_eq hx', length_reloads _ hx, length_reloads _ hx', h.countP_readsV]
    exact hstep.ids
  · have hdraw : supply.afterSlot.InStep ρ
        ((outline.flatten.map (Piece.fill s)).countP (·.readsV v)) supply'.afterSlot := by
      rw [← h.instructions_left]
      exact hstep
    rcases spillBlocks_refill k (Machine.spillSize v.cls) v (t := t) hdraw with
      ⟨made, hshapes, hmade, hmade'⟩
    refine ⟨made, ⟨?_, ?_, ?_⟩, hshapes⟩
    · rw [hfunc, hfunc']
      exact h.name
    · rw [hfunc, hleft, h.left]
      exact hmade
    · rw [hfunc', hright, h.right]
      exact hmade'

variable {l : Liveness M} {colors : Assignment M}

/-- Placing removes the difference in registers. -/
theorem place (h : f.Outlined ρ s t outline g) (hl : f.liveness = .ok l)
    (hcolors : l.interference.color = .ok (.complete colors)) :
    ∃ made : List (List (Piece M)), made.map Piece.shapes = outline.map Piece.shapes ∧
      (f.place l.interference colors).blocks = made.map (Piece.block (Piece.fill s)) ∧
      (g.place (l.renumber ρ).interference colors).blocks =
        made.map (Piece.block (Piece.fill t)) := by
  -- Every register that is mentioned gets one of the machine, which has no number.
  have hplaced : ∀ r ∈ f.registers, colors.place (l.renumber ρ).interference (ρ.reg r) =
      colors.place l.interference r := by
    intro r hr
    rw [l.place_renumber]
    cases r with
    | physical p => rfl
    | virtual v =>
        rcases exists_place hl hcolors (exists_group_of_virtual h.inputs hl hr) with
          ⟨_, _, p, _, _, _, hplace⟩
        rw [hplace]
        rfl
  refine ⟨outline.map (List.map (Piece.mapRegs (colors.place l.interference))), ?_, ?_, ?_⟩
  · rw [List.map_map]
    exact List.map_congr_left fun pieces _ => Piece.shapes_mapRegs _ pieces
  · simp only [Function.place, h.left, List.map_map]
    refine List.map_congr_left fun pieces _ => ?_
    simp only [Function.comp_apply, Piece.block, List.map_map, Piece.fill_mapRegs,
      Function.comp_def]
  · simp only [Function.place, h.right, List.map_map]
    refine List.map_congr_left fun pieces hpieces => ?_
    simp only [Function.comp_apply, Piece.block, List.map_map]
    congr 1
    refine List.map_congr_left fun p hp => ?_
    -- Renumbering and then placing is placing, for the registers of the function.
    rw [Function.comp_apply, Function.comp_apply, Piece.fill_mapRegs, Piece.refill,
      Instr.mapRegs_mapRegs]
    refine Instr.mapRegs_congr _ fun r hr => hplaced r ?_
    rw [p.registers_fill t s] at hr
    exact h.mem_registers hpieces hp hr

end Function.Outlined

end RegisterColoring
