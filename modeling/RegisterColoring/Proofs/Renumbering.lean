import RegisterColoring.Live.Scan
import RegisterColoring.Proofs.Lowered
import RegisterColoring.Proofs.Walk

/-!
# Renumbering Virtual Registers

The id of a virtual register says more than which register is meant. Registers are sorted
by their ids, groups and nodes are numbered in that order, and ties between candidates go
to the lower one. None of this changes if all ids are replaced and their order is kept:
whatever looks at the renumbered code finds the renumbered registers in the same places.

Code is compared by `Instr.Renumbered`, which leaves constants, names and frame slots
open. No analysis looks at these, and the code of two allocations that draw from different
supplies agrees in everything but its slots.

## Main definitions

* `Renumbering`: New ids in the order of the old ones.
* `Instr.Renumbered`, `Block.Renumbered`, `Function.Renumbered`: Code with new ids.
* `Scan.renumber`: A scan with new ids.

## Theorems

* `Renumbering.before_reg`, `Renumbering.aliases_reg`: What renumbering keeps of registers.
* `ascending_map`, `lookup_map_key`: Sorting and looking up renumbered elements.
* `Function.Renumbered.arrivals`: Renumbering does not change the control flow.
* `Function.Renumbered.scans`: The scans of renumbered code.
-/

namespace RegisterColoring

variable {M : Machine}

/-- New ids for virtual registers, in the order of the old ones. -/
structure Renumbering where
  num : Nat → Nat
  mono : ∀ {a b : Nat}, a < b → num a < num b

namespace Renumbering

variable (ρ : Renumbering)

def vreg (v : VReg M) : VReg M :=
  ⟨ρ.num v.id, v.cls⟩

def reg : Register M → Register M
  | .virtual v => .virtual (ρ.vreg v)
  | .physical p => .physical p

theorem num_lt_iff {a b : Nat} : ρ.num a < ρ.num b ↔ a < b := by
  refine ⟨fun h => ?_, ρ.mono⟩
  by_contra hge
  rcases Nat.lt_or_ge b a with hlt | hle
  · have hba := ρ.mono hlt
    omega
  · obtain rfl : a = b := by omega
    exact Nat.lt_irrefl _ h

theorem num_inj {a b : Nat} : ρ.num a = ρ.num b ↔ a = b := by
  refine ⟨fun h => ?_, fun h => by rw [h]⟩
  have hab : ρ.num a < ρ.num b ↔ a < b := ρ.num_lt_iff
  have hba : ρ.num b < ρ.num a ↔ b < a := ρ.num_lt_iff
  omega

theorem vreg_inj {v w : VReg M} : ρ.vreg v = ρ.vreg w ↔ v = w := by
  obtain ⟨i, c⟩ := v
  obtain ⟨j, d⟩ := w
  simp [vreg, num_inj]

theorem reg_inj {r q : Register M} : ρ.reg r = ρ.reg q ↔ r = q := by
  cases r <;> cases q <;> simp [reg, vreg_inj]

theorem num_injective : Function.Injective ρ.num := fun _ _ h => ρ.num_inj.mp h

theorem reg_injective : Function.Injective (ρ.reg (M := M)) := fun _ _ h => ρ.reg_inj.mp h

theorem below_num (a b : Nat) : below (ρ.num a) (ρ.num b) = below a b :=
  decide_eq_decide.mpr ρ.num_lt_iff

/-- Renumbering keeps the order of virtual registers. -/
theorem before_vreg (v w : VReg M) : (ρ.vreg v).before (ρ.vreg w) = v.before w := by
  unfold VReg.before vreg
  rw [below_num, decide_eq_decide.mpr ρ.num_inj]

theorem before_reg (r q : Register M) : (ρ.reg r).before (ρ.reg q) = r.before q := by
  cases r with
  | virtual v =>
      cases q with
      | virtual w => exact ρ.before_vreg v w
      | physical p => rfl
  | physical p => cases q <;> rfl

theorem aliases_reg (r q : Register M) : (ρ.reg r).aliases (ρ.reg q) = r.aliases q := by
  cases r with
  | virtual v => exact decide_eq_decide.mpr ρ.reg_inj
  | physical p =>
      cases q with
      | virtual w => rfl
      | physical q => rfl

theorem isVirtual_reg (r : Register M) : (ρ.reg r).isVirtual = r.isVirtual := by
  cases r <;> rfl

theorem physical_reg (r : Register M) : (ρ.reg r).physical? = r.physical? := by
  cases r <;> rfl

theorem virtual_reg (r : Register M) : (ρ.reg r).virtual? = r.virtual?.map ρ.vreg := by
  cases r <;> rfl

theorem virtuals_map_reg (l : List (Register M)) :
    (l.map ρ.reg).filterMap Register.virtual? = (l.filterMap Register.virtual?).map ρ.vreg := by
  rw [List.filterMap_map, List.map_filterMap]
  exact List.filterMap_congr fun r _ => ρ.virtual_reg r

theorem mem_map_reg {v : VReg M} {l : List (Register M)} :
    .virtual (ρ.vreg v) ∈ l.map ρ.reg ↔ .virtual v ∈ l :=
  List.mem_map_of_injective (a := .virtual v) ρ.reg_injective

end Renumbering

section Lists

variable {α β γ δ : Type}

theorem insertAscending_map {φ : α → β} {lt : α → α → Bool} {lt' : β → β → Bool}
    (h : ∀ a b, lt' (φ a) (φ b) = lt a b) (a : α) (l : List α) :
    insertAscending lt' (φ a) (l.map φ) = (insertAscending lt a l).map φ := by
  induction l with
  | nil => rfl
  | cons b l ih =>
      simp only [List.map_cons, insertAscending, h]
      split
      · rfl
      · split
        · rw [ih, List.map_cons]
        · rfl

/-- Sorting commutes with a map that keeps the order. -/
theorem ascending_map {φ : α → β} {lt : α → α → Bool} {lt' : β → β → Bool}
    (h : ∀ a b, lt' (φ a) (φ b) = lt a b) (l : List α) :
    ascending lt' (l.map φ) = (ascending lt l).map φ := by
  induction l with
  | nil => rfl
  | cons a l ih =>
      have hleft : ascending lt' ((a :: l).map φ) =
          insertAscending lt' (φ a) (ascending lt' (l.map φ)) := rfl
      rw [hleft, ih, insertAscending_map h]
      rfl

/-- Under new keys, looking up a new key finds what the old one had. -/
theorem lookup_map_key [DecidableEq α] [DecidableEq β] {φ : α → β} (hφ : Function.Injective φ)
    (g : γ → δ) (a : α) (l : List (α × γ)) :
    (l.map (Prod.map φ g)).lookup (φ a) = (l.lookup a).map g := by
  induction l with
  | nil => rfl
  | cons entry l ih =>
      obtain ⟨k, x⟩ := entry
      by_cases hk : a = k
      · subst hk
        simp
      · have hne : (a == k) = false := by simpa using hk
        have hne' : (φ a == φ k) = false := by simpa using fun h => hk (hφ h)
        simp only [List.map_cons, Prod.map_apply, List.lookup_cons, hne, hne']
        exact ih

/-- Related lists are split at related places. -/
theorem splitTrailing_forall₂ {R : α → β → Prop} {p : α → Bool} {q : β → Bool}
    (hpq : ∀ a b, R a b → q b = p a) {l : List α} {l' : List β} (h : List.Forall₂ R l l') :
    List.Forall₂ R (splitTrailing p l).1 (splitTrailing q l').1 ∧
      List.Forall₂ R (splitTrailing p l).2 (splitTrailing q l').2 := by
  induction h with
  | nil => exact ⟨.nil, .nil⟩
  | @cons a b l l' hab _ ih =>
      -- Whether an element joins the run depends on its test and on what stands behind it.
      have hempty : (splitTrailing q l').1.isEmpty = (splitTrailing p l).1.isEmpty := by
        rw [Bool.eq_iff_iff, List.isEmpty_iff_length_eq_zero, List.isEmpty_iff_length_eq_zero,
          ih.1.length_eq]
      rw [splitTrailing_cons, splitTrailing_cons, consTrailing, consTrailing, hempty, hpq a b hab]
      split
      · exact ⟨.nil, .cons hab ih.2⟩
      · exact ⟨.cons hab ih.1, ih.2⟩

end Lists

/-- An instruction with new ids. Operands other than registers and block references
    may differ. -/
structure Instr.Renumbered (ρ : Renumbering) (i j : Instr M) : Prop where
  op : j.op = i.op
  defs : j.defs = i.defs.map ρ.reg
  regs : j.uses.map Operand.reg? = i.uses.map fun u => u.reg?.map ρ.reg
  blocks : j.uses.map Operand.block? = i.uses.map Operand.block?

/-- A block without inputs, with new ids. -/
structure Block.Renumbered (ρ : Renumbering) (b c : Block M) : Prop where
  inputs : b.inputs = []
  inputs' : c.inputs = []
  code : List.Forall₂ (Instr.Renumbered ρ) b.code c.code

/-- A function without inputs, with new ids. -/
structure Function.Renumbered (ρ : Renumbering) (f g : Function M) : Prop where
  name : g.name = f.name
  blocks : List.Forall₂ (Block.Renumbered ρ) f.blocks g.blocks

variable {ρ : Renumbering}

namespace Instr.Renumbered

variable {i j : Instr M}

theorem isTerminator (h : i.Renumbered ρ j) : j.isTerminator = i.isTerminator := by
  rw [Instr.isTerminator, Instr.isTerminator, h.op]

theorem reads (h : i.Renumbered ρ j) : j.reads = i.reads.map ρ.reg := by
  have hread : ∀ (k : Instr M), k.reads = (k.uses.map Operand.reg?).filterMap id := by
    intro k
    rw [List.filterMap_map]
    rfl
  rw [hread, h.regs, List.filterMap_map, Instr.reads, List.map_filterMap]
  rfl

theorem registers (h : i.Renumbered ρ j) : j.registers = i.registers.map ρ.reg := by
  rw [Instr.registers, Instr.registers, h.defs, h.reads, List.map_append]

theorem references (h : i.Renumbered ρ j) : j.references = i.references := by
  have hreference : ∀ (k : Instr M), k.references = (k.uses.map Operand.block?).filterMap id := by
    intro k
    rw [List.filterMap_map]
    rfl
  rw [hreference, h.blocks, ← hreference]

theorem operand (h : i.Renumbered ρ j) (n : Nat) :
    j.uses[n]?.bind Operand.reg? = (i.uses[n]?.bind Operand.reg?).map ρ.reg := by
  -- Equal lists of registers have equal lengths, so the index is in both or in none.
  have hn := congrArg (fun l => l[n]?.join) h.regs
  simp only [List.getElem?_map] at hn
  cases hj : j.uses[n]? <;> cases hi : i.uses[n]? <;> simp_all

theorem ties (h : i.Renumbered ρ j) : j.ties = i.ties.map (Prod.map ρ.reg ρ.reg) := by
  unfold Instr.ties
  rw [h.op, List.map_filterMap]
  refine List.filterMap_congr fun pair _ => ?_
  obtain ⟨d, u⟩ := pair
  simp only [h.defs, h.operand, List.getElem?_map]
  cases i.defs[d]? with
  | none => rfl
  | some written => cases i.uses[u]?.bind Operand.reg? <;> rfl

end Instr.Renumbered

namespace Block.Renumbered

variable {b c : Block M}

theorem run (h : b.Renumbered ρ c) : List.Forall₂ (Instr.Renumbered ρ) b.run c.run :=
  (splitTrailing_forall₂ (fun _ _ h => h.isTerminator) h.code).2

theorem lastIndex (h : b.Renumbered ρ c) : c.lastIndex = b.lastIndex := by
  rw [Block.lastIndex, Block.lastIndex, h.code.length_eq]

theorem successors (h : b.Renumbered ρ c) : c.successors = b.successors := by
  have hreferences := map_eq_of_forall₂ h.run fun _ _ _ hij => Instr.Renumbered.references hij
  rw [Block.successors, Block.successors, List.flatMap_def, List.flatMap_def, hreferences]

theorem registers (h : b.Renumbered ρ c) : c.registers = b.registers.map ρ.reg := by
  have hcode := map_eq_of_forall₂ h.code fun _ _ _ hij => Instr.Renumbered.registers hij
  simp only [Block.registers, h.inputs, h.inputs', List.map_nil, List.nil_append,
    List.flatMap_def, hcode]
  rw [List.map_flatten, List.map_map]
  rfl

end Block.Renumbered

namespace Function.Renumbered

variable {f g : Function M}

theorem size (h : f.Renumbered ρ g) : g.size = f.size :=
  h.blocks.length_eq.symm

theorem registers (h : f.Renumbered ρ g) : g.registers = f.registers.map ρ.reg := by
  have hblocks := map_eq_of_forall₂ h.blocks fun _ _ _ hbc => Block.Renumbered.registers hbc
  rw [Function.registers, Function.registers, List.flatMap_def, List.flatMap_def, hblocks,
    List.map_flatten, List.map_map]
  rfl

/-- Renumbering does not change the control flow. -/
theorem arrivals (h : f.Renumbered ρ g) : g.arrivals = f.arrivals := by
  have hnext : g.next = f.next :=
    next_congr (map_eq_of_forall₂ h.blocks fun _ _ _ hbc => Block.Renumbered.successors hbc)
  have hsize : g.flow.size = f.flow.size := by rw [size_flow, size_flow, h.size]
  -- Arrivals see the graph only through its size and its links.
  have hunfold : ∀ k : Function M, k.arrivals =
      if k.flow.size = 0 then [] else arrivalsFrom k.next k.flow.size [] 0 := fun _ => rfl
  rw [hunfold, hunfold, hnext, hsize]

end Function.Renumbered

namespace Scan

/-- A scan with new ids. -/
def renumber (ρ : Renumbering) (s : Scan M) : Scan M :=
  ⟨s.writes.map (Prod.map ρ.reg id), s.pending.map (Prod.map ρ.reg id)⟩

variable (s : Scan M) (index : Nat) (r : Register M)

theorem lookup_renumber {α : Type} (l : List (Register M × α)) :
    (l.map (Prod.map ρ.reg id)).lookup (ρ.reg r) = l.lookup r := by
  rw [lookup_map_key ρ.reg_injective, Option.map_id, id]

theorem lastRead_renumber : (s.renumber ρ).lastRead? (ρ.reg r) = s.lastRead? r := by
  have haliases : ((fun entry : Register M × Nat => entry.1.aliases (ρ.reg r)) ∘
      Prod.map ρ.reg id) = fun entry => entry.1.aliases r :=
    funext fun entry => ρ.aliases_reg entry.1 r
  simp only [lastRead?, renumber, List.filter_map, haliases, List.map_map]
  rfl

theorem write_renumber : (s.renumber ρ).write index (ρ.reg r) = (s.write index r).renumber ρ := by
  -- The same pending reads are closed, because aliasing is kept.
  have haliases : ((fun entry : Register M × Nat => !entry.1.aliases (ρ.reg r)) ∘
      Prod.map ρ.reg id) = fun entry => !entry.1.aliases r :=
    funext fun entry => congrArg not (ρ.aliases_reg entry.1 r)
  unfold write
  rw [lastRead_renumber]
  simp only [renumber, List.filter_map, haliases]
  rfl

theorem read_renumber : (s.renumber ρ).read index (ρ.reg r) = (s.read index r).renumber ρ := by
  unfold read
  have hlookup : (s.renumber ρ).pending.lookup (ρ.reg r) = s.pending.lookup r :=
    lookup_renumber r s.pending
  rw [hlookup]
  split <;> rfl

/-- Passing a renumbered instruction. -/
theorem instr_renumber {i j : Instr M} (h : i.Renumbered ρ j) :
    (s.renumber ρ).instr index j = (s.instr index i).renumber ρ := by
  unfold instr
  rw [h.defs, h.reads, List.foldl_map, List.foldl_map,
    List.foldl_hom (renumber ρ) fun s d => write_renumber s index d,
    List.foldl_hom (renumber ρ) fun s r => read_renumber s index r]

theorem spans_renumber : (s.renumber ρ).spans (ρ.reg r) = s.spans r := by
  have hpending : (s.renumber ρ).pending.lookup (ρ.reg r) = s.pending.lookup r :=
    lookup_renumber r s.pending
  unfold spans
  rw [hpending, renumber, List.filterMap_map]
  refine congrArg _ (List.filterMap_congr fun entry _ => ?_)
  obtain ⟨w, span⟩ := entry
  simp only [Function.comp_apply, Prod.map_apply, id, ρ.reg_inj]

theorem exposes_renumber : (s.renumber ρ).exposes (ρ.reg r) = s.exposes r :=
  congrArg Option.isSome (lookup_renumber r s.pending)

theorem defines_renumber : (s.renumber ρ).defines (ρ.reg r) = s.defines r :=
  congrArg Option.isSome (lookup_renumber r s.writes)

theorem registers_renumber : (s.renumber ρ).registers = s.registers.map ρ.reg := by
  simp only [registers, renumber, List.map_append, List.map_map]
  rfl

end Scan

theorem scanCode_renumber {index : Nat} {code code' : List (Instr M)}
    (h : List.Forall₂ (Instr.Renumbered ρ) code code') :
    scanCode index code' = (scanCode index code).renumber ρ := by
  induction h generalizing index with
  | nil => rfl
  | cons hij _ ih => rw [scanCode, scanCode, ih, Scan.instr_renumber _ _ hij]

/-- The scans of renumbered code. -/
theorem Function.Renumbered.scans {f g : Function M} (h : f.Renumbered ρ g) :
    g.blocks.map Block.scan = (f.blocks.map Block.scan).map (Scan.renumber ρ) := by
  rw [List.map_map]
  refine map_eq_of_forall₂ h.blocks fun b _ c hbc => ?_
  simp only [Block.scan, hbc.inputs, hbc.inputs', List.map_nil, List.foldl_nil,
    Function.comp_apply]
  exact scanCode_renumber hbc.code

end RegisterColoring
