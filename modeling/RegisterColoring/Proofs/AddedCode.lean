import RegisterColoring.Machine.Flat
import RegisterColoring.Proofs.CompiledRuns
import RegisterColoring.Proofs.RenumberedInputs
import RegisterColoring.Proofs.Tracked
import RegisterColoring.Sample

/-!
# Code That Allocation Adds

An allocation fills in registers and adds saves and reloads of slots that it has drawn.
Without these, the code is the one it was given: the same instructions in the same order,
with the same constants, slots and jumps, and with other registers.

`Function.Adds` says this of two functions. A spill adds the code for one slot, placing
adds nothing, and what is added one after the other is added together (`Adds.trans`), so
the rounds of an allocation need no invariant but that slots stay apart. Nothing is asked
of the ids of registers: a reload may go to a register that is in use.

## Main definitions

* `Instr.accesses`, `strip`: Saves and reloads of given slots, and code without them.
* `Instr.Matches`: The same instruction up to its registers.
* `Function.Adds`: A function with spill code added and registers replaced.
* `Register.Filled`: A register and the one that an allocation has put in its place.

## Theorems

* `Function.Adds.trans`: What is added in two steps.
* `Function.adds_spill`: A spill adds the code for its slot.
* `Function.adds_place`: Placing only fills in registers.
* `Function.adds_allocate`: An allocation fills in registers and adds its spill code.
-/

namespace RegisterColoring

variable {M : Machine}

/-- The frame slot that an operand names. -/
def Operand.slot? : Operand M → Option Slot
  | .frame slot _ => some slot
  | _ => none

/-- The frame slots that an instruction names. -/
def Instr.slots (i : Instr M) : List Slot :=
  i.uses.filterMap Operand.slot?

/-- A save or reload of one of the slots. -/
def Instr.accesses (slots : List Slot) (i : Instr M) : Bool :=
  (decide (i.op = .common .save) || decide (i.op = .common .reload)) && i.slots.any slots.contains

/-- The code without saves and reloads of the slots. -/
def strip (slots : List Slot) (code : List (Instr M)) : List (Instr M) :=
  code.filter fun i => !i.accesses slots

/-- The ids of all slots in use are below `n`. -/
def Function.SlotsBelow (f : Function M) (n : Nat) : Prop :=
  ∀ i ∈ f.instructions, ∀ slot ∈ i.slots, slot.id < n

instance (f : Function M) (n : Nat) : Decidable (f.SlotsBelow n) :=
  inferInstanceAs (Decidable (∀ i ∈ f.instructions, ∀ slot ∈ i.slots, slot.id < n))

/-- The same operand, or two registers that `R` relates. -/
inductive Operand.Matches (R : Register M → Register M → Prop) : Operand M → Operand M → Prop where
  | reg {r s : Register M} (h : R r s) : Matches R (.reg r) (.reg s)
  | fixed {u : Operand M} (h : u.reg? = none) : Matches R u u

/-- The same instruction, up to registers that `R` relates. -/
structure Instr.Matches (R : Register M → Register M → Prop) (i j : Instr M) : Prop where
  op : j.op = i.op
  defs : List.Forall₂ R i.defs j.defs
  uses : List.Forall₂ (Operand.Matches R) i.uses j.uses

/-- Two blocks that match, if saves and reloads of the slots are left out. -/
structure Block.Adds (R : Register M → Register M → Prop) (slots : List Slot) (b c : Block M) :
    Prop where
  inputs : c.inputs = b.inputs
  code : List.Forall₂ (Instr.Matches R) b.code (strip slots c.code)
  successors : c.successors = b.successors

/-- Two functions whose blocks match, if saves and reloads of the slots are left out. -/
structure Function.Adds (R : Register M → Register M → Prop) (slots : List Slot)
    (f g : Function M) : Prop where
  name : g.name = f.name
  blocks : List.Forall₂ (Block.Adds R slots) f.blocks g.blocks

/-- A register and the one that stands for it once registers with the given ids have been
    spilled and each other one is in its home. -/
inductive Register.Filled (home : VReg M → Option M.Reg) (spilled : List Nat) :
    Register M → Register M → Prop where
  | physical (p : M.Reg) : Filled home spilled (.physical p) (.physical p)
  | virtual {v : VReg M} {p : M.Reg} (h : v.id ∉ spilled → home v = some p) :
      Filled home spilled (.virtual v) (.physical p)

/-- The spilled register may be read from any other one. -/
def Register.Reloaded (v : VReg M) (r s : Register M) : Prop :=
  s = r ∨ r = .virtual v ∧ ∃ w, s = .virtual w

theorem Register.Reloaded.refl (v : VReg M) (r : Register M) : r.Reloaded v r :=
  Or.inl rfl

theorem Register.Reloaded.virtual (v w : VReg M) : Register.Reloaded v (.virtual v) (.virtual w) :=
  Or.inr ⟨rfl, w, rfl⟩

/-- What is filled in for a reloaded register is filled in for the spilled one. -/
theorem Register.Filled.of_reloaded {home : VReg M → Option M.Reg} {spilled : List Nat}
    {v : VReg M} {r s t : Register M} (hrs : r.Reloaded v s) (hst : s.Filled home spilled t) :
    r.Filled home (v.id :: spilled) t := by
  rcases hrs with rfl | ⟨rfl, w, rfl⟩
  · cases hst with
    | physical p => exact .physical p
    | virtual h => exact .virtual fun hnot => h fun hmem => hnot (List.mem_cons_of_mem _ hmem)
  · cases hst with
    | virtual _ => exact .virtual fun hnot => absurd List.mem_cons_self hnot

section Lists

variable {α β γ : Type} {R : α → β → Prop} {S : β → γ → Prop} {T : α → γ → Prop}

theorem forall₂_trans (hT : ∀ a b c, R a b → S b c → T a c) {l : List α} {l' : List β}
    {l'' : List γ} (h : List.Forall₂ R l l') (h' : List.Forall₂ S l' l'') :
    List.Forall₂ T l l'' := by
  induction h generalizing l'' with
  | nil => cases h'; exact .nil
  | cons hhead _ ih =>
      cases h' with
      | cons hhead' hrest => exact .cons (hT _ _ _ hhead hhead') (ih hrest)

end Lists

section Matching

variable {R S T : Register M → Register M → Prop}

namespace Operand.Matches

theorem trans (hT : ∀ r s t, R r s → S s t → T r t) {u w x : Operand M} (h : u.Matches R w)
    (h' : w.Matches S x) : u.Matches T x := by
  cases h with
  | reg h =>
      cases h' with
      | reg h' => exact .reg (hT _ _ _ h h')
      | fixed hnone => exact absurd hnone (by simp [reg?])
  | fixed hnone =>
      cases h' with
      | reg _ => exact absurd hnone (by simp [reg?])
      | fixed _ => exact .fixed hnone

theorem of_rename {φ : Register M → Register M} {u : Operand M}
    (h : ∀ r, u = .reg r → R r (φ r)) : u.Matches R (u.rename φ) := by
  cases u with
  | reg r => exact .reg (h r rfl)
  | _ => exact .fixed rfl

/-- What is read off operands other than registers is the same. -/
theorem filterMap_eq {α : Type} {F : Operand M → Option α} (hF : ∀ r, F (.reg r) = none)
    {us ws : List (Operand M)} (h : List.Forall₂ (Operand.Matches R) us ws) :
    ws.filterMap F = us.filterMap F := by
  induction h with
  | nil => rfl
  | cons hhead _ ih =>
      cases hhead with
      | reg _ => rw [List.filterMap_cons, List.filterMap_cons, hF, hF, ih]
      | fixed _ => rw [List.filterMap_cons, List.filterMap_cons, ih]

end Operand.Matches

namespace Instr.Matches

variable {i j : Instr M}

theorem trans (hT : ∀ r s t, R r s → S s t → T r t) {k : Instr M} (h : i.Matches R j)
    (h' : j.Matches S k) : i.Matches T k where
  op := h'.op.trans h.op
  defs := forall₂_trans hT h.defs h'.defs
  uses := forall₂_trans (fun _ _ _ hu hw => hu.trans hT hw) h.uses h'.uses

/-- An instruction whose results and operands are renamed, each in its own way. -/
theorem of_rename {φ ψ : Register M → Register M} (hop : j.op = i.op)
    (hdefs : j.defs = i.defs.map φ) (huses : j.uses = i.uses.map (Operand.rename ψ))
    (hφ : ∀ r ∈ i.defs, R r (φ r)) (hψ : ∀ r ∈ i.reads, R r (ψ r)) : i.Matches R j where
  op := hop
  defs := by
    rw [hdefs, List.forall₂_map_right_iff]
    exact List.forall₂_same.mpr hφ
  uses := by
    rw [huses, List.forall₂_map_right_iff]
    refine List.forall₂_same.mpr fun u hu => .of_rename fun r hr => ?_
    exact hψ r (Instr.mem_reads.mpr (hr ▸ hu))

theorem mapRegs {φ : Register M → Register M} (h : ∀ r ∈ i.registers, R r (φ r)) :
    i.Matches R (i.mapRegs φ) :=
  .of_rename rfl rfl (i.uses_mapRegs φ) (fun r hr => h r (List.mem_append_left _ hr))
    fun r hr => h r (List.mem_append_right _ hr)

theorem refl (h : ∀ r ∈ i.registers, R r r) : i.Matches R i := by
  have hself := mapRegs (φ := id) h
  have heq : i.mapRegs id = i := Instr.mapRegs_eq_self fun _ _ => rfl
  rwa [heq] at hself

/-- Reads of one register become reads of another that `R` relates to it. -/
theorem readInstead {v w : VReg M} (hR : ∀ r, R r r) (hw : R (.virtual v) (.virtual w)) :
    i.Matches R (i.readInstead v w) := by
  refine .of_rename rfl (List.map_id _).symm (i.uses_readInstead w) (fun r _ => hR r) ?_
  intro r _
  by_cases hr : r = .virtual v
  · rw [if_pos hr, hr]
    exact hw
  · rw [if_neg hr]
    exact hR r

theorem slots (h : i.Matches R j) : j.slots = i.slots :=
  Operand.Matches.filterMap_eq (fun _ => rfl) h.uses

theorem references (h : i.Matches R j) : j.references = i.references :=
  Operand.Matches.filterMap_eq (fun _ => rfl) h.uses

/-- Matching code names the same slots. -/
theorem not_mem_slots {code code' : List (Instr M)}
    (h : List.Forall₂ (Instr.Matches R) code code') {slot : Slot}
    (hnew : ∀ i ∈ code, slot ∉ i.slots) : ∀ j ∈ code', slot ∉ j.slots := by
  intro j hj
  rcases exists_left_of_forall₂ h hj with ⟨i, hi, hij⟩
  rw [hij.slots]
  exact hnew i hi

/-- A register of the one instruction is related to one of the other. -/
theorem exists_of_mem (h : i.Matches R j) {s : Register M} (hs : s ∈ j.registers) :
    ∃ r ∈ i.registers, R r s := by
  rcases List.mem_append.mp hs with hdef | hread
  · rcases exists_left_of_forall₂ h.defs hdef with ⟨r, hr, hrs⟩
    exact ⟨r, List.mem_append_left _ hr, hrs⟩
  · rcases exists_left_of_forall₂ h.uses (Instr.mem_reads.mp hread) with ⟨u, hu, hus⟩
    cases hus with
    | @reg r _ hrs => exact ⟨r, List.mem_append_right _ (Instr.mem_reads.mpr hu), hrs⟩
    | fixed hnone => exact absurd hnone (by simp [Operand.reg?])

theorem accesses (h : i.Matches R j) (slots : List Slot) : j.accesses slots = i.accesses slots := by
  rw [Instr.accesses, Instr.accesses, h.op, h.slots]

end Instr.Matches

theorem Instr.slots_readInstead (i : Instr M) (v w : VReg M) :
    (i.readInstead v w).slots = i.slots :=
  (Matches.readInstead (R := fun _ _ => True) (fun _ => trivial) trivial).slots

theorem Instr.accesses_iff {i : Instr M} {slots : List Slot} :
    i.accesses slots = true ↔ (i.op = .common .save ∨ i.op = .common .reload) ∧
      ∃ slot ∈ i.slots, slot ∈ slots := by
  simp only [accesses, Bool.and_eq_true, Bool.or_eq_true, decide_eq_true_iff, List.any_eq_true,
    List.contains_iff_mem]

theorem Instr.accesses_append (i : Instr M) (slots slots' : List Slot) :
    i.accesses (slots ++ slots') = (i.accesses slots || i.accesses slots') := by
  rw [Bool.eq_iff_iff]
  simp only [Bool.or_eq_true, accesses_iff, List.mem_append, and_or_left, exists_or]

theorem strip_nil (code : List (Instr M)) : strip [] code = code :=
  List.filter_eq_self.mpr fun i _ => by simp [Instr.accesses]

theorem strip_append (slots : List Slot) (code code' : List (Instr M)) :
    strip slots (code ++ code') = strip slots code ++ strip slots code' :=
  List.filter_append ..

/-- Leaving out the code of one slot after the other. -/
theorem strip_strip (slots slots' : List Slot) (code : List (Instr M)) :
    strip slots (strip slots' code) = strip (slots ++ slots') code := by
  rw [strip, strip, strip, List.filter_filter]
  refine List.filter_congr fun i _ => ?_
  rw [i.accesses_append, Bool.not_or]

theorem forall₂_strip {code code' : List (Instr M)} (h : List.Forall₂ (Instr.Matches R) code code')
    (slots : List Slot) :
    List.Forall₂ (Instr.Matches R) (strip slots code) (strip slots code') :=
  List.rel_filter (fun _ _ hij => by simp only [hij.accesses slots]) h

end Matching

theorem Block.successors_mapRegs (b : Block M) (φ : Register M → Register M) :
    (b.mapRegs φ).successors = b.successors := by
  have hreferences : ∀ i ∈ b.run, (i.mapRegs φ).references = i.references := fun i _ =>
    (Instr.Matches.mapRegs (R := fun _ _ => True) fun _ _ => trivial).references
  rw [successors, run_mapRegs, List.flatMap_map, List.flatMap_congr hreferences]
  rfl

section Spilling

variable {slot : Slot} {v : VReg M} {Fresh : VReg M → Prop}

theorem accesses_reloadFrom (w : VReg M) : (reloadFrom slot w).accesses [slot] = true := by
  simp [Instr.accesses, Instr.slots, reloadFrom, Operand.slot?]

theorem accesses_saveTo : (saveTo slot v).accesses [slot] = true := by
  simp [Instr.accesses, Instr.slots, saveTo, Operand.slot?]

theorem accesses_saveAfter (i : Instr M) :
    ∀ j ∈ saveAfter slot v i, j.accesses [slot] = true :=
  fun _ hj => (mem_saveAfter.mp hj).1 ▸ accesses_saveTo

theorem Hoisted.accesses_reloads {run reloads run' : List (Instr M)}
    (h : Hoisted slot v Fresh run reloads run') : ∀ j ∈ reloads, j.accesses [slot] = true := by
  intro j hj
  rcases h.mem_reloads hj with ⟨w, _, rfl⟩
  exact accesses_reloadFrom w

theorem strip_reload (w : VReg M) (code : List (Instr M)) :
    strip [slot] (reloadFrom slot w :: code) = strip [slot] code :=
  List.filter_cons_of_neg (by simp [accesses_reloadFrom])

theorem strip_eq_nil {code : List (Instr M)} (h : ∀ i ∈ code, i.accesses [slot] = true) :
    strip [slot] code = [] :=
  List.filter_eq_nil_iff.mpr fun i hi => by simp [h i hi]

theorem strip_saveAfter (i : Instr M) (code : List (Instr M)) :
    strip [slot] (saveAfter slot v i ++ code) = strip [slot] code := by
  rw [strip_append, strip_eq_nil (accesses_saveAfter i), List.nil_append]

theorem not_accesses_of_new {i : Instr M} (hnew : slot ∉ i.slots) :
    (!i.accesses [slot]) = true := by
  rw [Bool.not_eq_true', ← Bool.not_eq_true, Instr.accesses_iff]
  rintro ⟨_, s, hs, hmem⟩
  exact hnew (List.mem_singleton.mp hmem ▸ hs)

/-- An instruction that does not name the slot stays. -/
theorem strip_cons_of_new {i : Instr M} (hnew : slot ∉ i.slots) (code : List (Instr M)) :
    strip [slot] (i :: code) = i :: strip [slot] code :=
  List.filter_cons_of_pos (not_accesses_of_new hnew)

theorem strip_eq_self {code : List (Instr M)} (hnew : ∀ i ∈ code, slot ∉ i.slots) :
    strip [slot] code = code :=
  List.filter_eq_self.mpr fun i hi => not_accesses_of_new (hnew i hi)

/-- An instruction that reads a reloaded register stays as well. -/
theorem strip_cons_readInstead {i : Instr M} (hnew : slot ∉ i.slots) (w : VReg M)
    (code : List (Instr M)) :
    strip [slot] (i.readInstead v w :: code) = i.readInstead v w :: strip [slot] code :=
  strip_cons_of_new (by rwa [Instr.slots_readInstead]) code

theorem SpillsTo.matches_strip {code code' : List (Instr M)}
    (h : SpillsTo slot v Fresh code code') (hnew : ∀ i ∈ code, slot ∉ i.slots) :
    List.Forall₂ (Instr.Matches (Register.Reloaded v)) code (strip [slot] code') := by
  induction h with
  | nil => exact .nil
  | @keep i _ code _ _ ih =>
      rw [strip_cons_of_new (hnew i (by simp)), strip_saveAfter]
      exact .cons (.refl fun r _ => .refl v r) (ih fun j hj => hnew j (by simp [hj]))
  | @reload i _ w _ code _ _ ih =>
      rw [strip_reload, strip_cons_readInstead (hnew i (by simp)), strip_saveAfter]
      exact .cons (.readInstead (.refl v) (.virtual v w)) (ih fun j hj => hnew j (by simp [hj]))

/-- Terminators stay, up to the registers that are read instead. -/
theorem Hoisted.forall₂_matches {R : Register M → Register M → Prop} (hR : ∀ r, R r r)
    (hfresh : ∀ w, Fresh w → R (.virtual v) (.virtual w)) {run reloads run' : List (Instr M)}
    (h : Hoisted slot v Fresh run reloads run') : List.Forall₂ (Instr.Matches R) run run' := by
  induction h with
  | nil => exact .nil
  | keep _ _ ih => exact .cons (.refl fun r _ => hR r) ih
  | @reload _ _ w hw _ _ _ _ ih => exact .cons (.readInstead hR (hfresh w hw)) ih

theorem Hoisted.matches_strip {run reloads run' : List (Instr M)}
    (h : Hoisted slot v Fresh run reloads run') (hnew : ∀ i ∈ run, slot ∉ i.slots) :
    List.Forall₂ (Instr.Matches (Register.Reloaded v)) run (strip [slot] (reloads ++ run')) := by
  have hrun := h.forall₂_matches (Register.Reloaded.refl v) fun w _ => .virtual v w
  rw [strip_append, strip_eq_nil h.accesses_reloads, List.nil_append,
    strip_eq_self (Instr.Matches.not_mem_slots hrun hnew)]
  exact hrun

/-- A spilled block has code for the slot added. -/
theorem Block.SpillsTo.adds {b c : Block M} (h : b.SpillsTo slot v Fresh c)
    (hnew : ∀ i ∈ b.code, slot ∉ i.slots) : b.Adds (Register.Reloaded v) [slot] c where
  inputs := h.inputs
  code := by
    rcases h.code with ⟨body, reloads, run, hbody, hrun, hcode⟩
    rw [hcode, ← b.body_append_run, List.append_assoc, strip_append]
    exact List.rel_append
      (hbody.matches_strip fun i hi => hnew i (Block.mem_code_iff.mpr (Or.inl hi)))
      (hrun.matches_strip fun i hi => hnew i (Block.mem_code_iff.mpr (Or.inr hi)))
  successors := h.successors_eq

end Spilling

/-- What is added in two steps. -/
theorem Block.Adds.trans {R S T : Register M → Register M → Prop} {slots slots' : List Slot}
    (hT : ∀ r s t, R r s → S s t → T r t) {b c d : Block M} (h : b.Adds R slots c)
    (h' : c.Adds S slots' d) : b.Adds T (slots ++ slots') d where
  inputs := h'.inputs.trans h.inputs
  code := by
    rw [← strip_strip]
    exact forall₂_trans (fun _ _ _ hij hjk => hij.trans hT hjk) h.code
      (forall₂_strip h'.code slots)
  successors := h'.successors.trans h.successors

namespace Function

variable {f g : Function M}

/-- What is added in two steps. -/
theorem Adds.trans {R S T : Register M → Register M → Prop} {slots slots' : List Slot}
    (hT : ∀ r s t, R r s → S s t → T r t) {e : Function M} (hfg : f.Adds R slots g)
    (hge : g.Adds S slots' e) : f.Adds T (slots ++ slots') e where
  name := hge.name.trans hfg.name
  blocks := forall₂_trans (fun _ _ _ hbc hcd => hbc.trans hT hcd) hfg.blocks hge.blocks

theorem Adds.inputs_eq_nil {R : Register M → Register M → Prop} {slots : List Slot}
    (h : f.Adds R slots g) (hin : ∀ b ∈ f.blocks, b.inputs = []) :
    ∀ c ∈ g.blocks, c.inputs = [] := by
  intro c hc
  rcases exists_left_of_forall₂ h.blocks hc with ⟨b, hb, hadds⟩
  rw [hadds.inputs, hin b hb]

section Spill

variable {v : VReg M} {supply : Supply} {s : Spill M} (hspill : f.spill v supply = .ok s)
include hspill

theorem blocks_spill :
    List.Forall₂ (Block.SpillsTo s.slot v fun _ => True) f.blocks s.func.blocks := by
  rw [(spill_eq_ok hspill).2.2.1]
  exact spillBlocks_spillsTo fun _ _ => trivial

/-- A spill adds the code for its slot. -/
theorem adds_spill (hnew : ∀ i ∈ f.instructions, s.slot ∉ i.slots) :
    f.Adds (Register.Reloaded v) [s.slot] s.func where
  name := by rw [(spill_eq_ok hspill).2.2.1]
  blocks := by
    have hblocks := (List.forall₂_and_left _ _).mpr ⟨fun b hb => hb, blocks_spill hspill⟩
    exact hblocks.imp fun b c ⟨hb, hbc⟩ => hbc.adds fun i hi => hnew i (mem_instructions hb hi)

/-- The new slot is the only one that was not in use before. -/
theorem SlotsBelow.spill {k : Nat} (h : f.SlotsBelow k) (hslot : s.slot.id = k) :
    s.func.SlotsBelow (k + 1) := by
  intro j hj slot hmem
  rcases List.mem_flatMap.mp hj with ⟨c, hc, hj⟩
  rcases exists_left_of_forall₂ (blocks_spill hspill) hc with ⟨b, hb, hbc⟩
  have hold : ∀ i ∈ b.code, slot ∈ i.slots → slot.id < k + 1 := fun i hi hmem =>
    Nat.lt_succ_of_lt (h i (mem_instructions hb hi) slot hmem)
  have hnew : slot ∈ [s.slot] → slot.id < k + 1 := by
    intro hmem
    rw [List.mem_singleton.mp hmem, hslot]
    omega
  cases hbc.spilledFrom hj with
  | kept hi => exact hold j hi hmem
  | @changed i hi w _ =>
      rw [Instr.slots_readInstead] at hmem
      exact hold i hi hmem
  | reload _ => exact hnew hmem
  | save _ _ => exact hnew hmem

end Spill

section Placed

variable {l : Liveness M} {colors : Assignment M} (hin : ∀ b ∈ f.blocks, b.inputs = [])
  (hl : f.liveness = .ok l) (hcolors : l.interference.color = .ok (.complete colors))
include hin hl hcolors

/-- Every register of a function without inputs finds its place. -/
theorem filled_place {r : Register M} (hr : r ∈ f.registers) :
    r.Filled (fun v => (colors.place l.interference (.virtual v)).physical?) []
      (colors.place l.interference r) := by
  cases r with
  | physical p => exact .physical p
  | virtual v =>
      rcases exists_place hl hcolors (exists_group_of_virtual hin hl hr) with
        ⟨_, _, p, _, _, _, hplace⟩
      rw [hplace]
      exact .virtual fun _ => by rw [hplace]; rfl

/-- Placing only fills in registers. -/
theorem adds_place :
    f.Adds (Register.Filled (fun v => (colors.place l.interference (.virtual v)).physical?) []) []
      (f.place l.interference colors) where
  name := rfl
  blocks := by
    refine List.forall₂_map_right_iff.mpr (List.forall₂_same.mpr fun b hb => ⟨rfl, ?_, ?_⟩)
    · rw [strip_nil, List.forall₂_map_right_iff]
      refine List.forall₂_same.mpr fun i hi => .mapRegs fun r hr => ?_
      exact filled_place hin hl hcolors (mem_registers_of_instr hb hi (List.mem_append.mp hr))
    · exact b.successors_mapRegs _

/-- Nothing virtual is left. -/
theorem hasVirtual_place : (f.place l.interference colors).hasVirtual = false := by
  have hadds := adds_place hin hl hcolors
  refine List.any_eq_false.mpr fun s hs => ?_
  rcases mem_registers.mp hs with ⟨c, hc, ⟨v, hv, _⟩ | ⟨j, hj, hs⟩⟩
  · rw [hadds.inputs_eq_nil hin c hc] at hv
    exact absurd hv (by simp)
  · rcases exists_left_of_forall₂ hadds.blocks hc with ⟨b, _, hbc⟩
    have hcode := hbc.code
    rw [strip_nil] at hcode
    rcases exists_left_of_forall₂ hcode hj with ⟨i, _, hij⟩
    rcases hij.exists_of_mem (List.mem_append.mpr hs) with ⟨r, _, hrs⟩
    cases hrs <;> simp [Register.isVirtual]

end Placed

/-- Without virtual registers there is nothing to fill in. -/
theorem adds_self (h : f.hasVirtual = false) (home : VReg M → Option M.Reg) :
    f.Adds (Register.Filled home []) [] f where
  name := rfl
  blocks := by
    refine List.forall₂_same.mpr fun b hb => ⟨rfl, ?_, rfl⟩
    rw [strip_nil]
    refine List.forall₂_same.mpr fun i hi => .refl fun r hr => ?_
    have hr := List.any_eq_false.mp h r (mem_registers_of_instr hb hi (List.mem_append.mp hr))
    cases r with
    | physical p => exact .physical p
    | virtual v => exact absurd rfl hr

end Function

/-- The rounds of an allocation fill in registers and add code for the slots they draw. -/
theorem adds_allocateRounds {w : Workspace M} {excluded : List Nat} {done summary : Summary}
    {budget k : Nat} (hin : ∀ b ∈ w.func.blocks, b.inputs = [])
    (hok : (allocateRounds w excluded done budget).result = .ok summary)
    (hbelow : w.func.SlotsBelow k)
    (hsupply : w.supply.slots % Supply.capacity = k % Supply.capacity)
    (hroom : k + summary.slots.length ≤ Supply.capacity + done.slots.length) :
    (allocateRounds w excluded done budget).workspace.func.hasVirtual = false ∧
      ∃ home spilled slots, summary.spilled = done.spilled ++ spilled ∧
        summary.slots = done.slots ++ slots ∧
        w.func.Adds (Register.Filled home spilled) slots
          (allocateRounds w excluded done budget).workspace.func := by
  -- Every round that spills leaves a smaller budget.
  induction budget using Nat.strongRecOn generalizing w excluded done k with
  | _ budget ih =>
      rcases allocateRounds_step w excluded done budget with ⟨cause, hout⟩ |
        ⟨l, colors, hl, hcolors, hout⟩ | ⟨l, v, s, rest, hl, _, hspill, hb, hout⟩
      · rw [hout] at hok
        exact absurd hok (by simp)
      · rw [hout] at hok ⊢
        obtain rfl := Except.ok.inj hok
        exact ⟨Function.hasVirtual_place hin hl hcolors, _, [], [], (List.append_nil _).symm,
          (List.append_nil _).symm, Function.adds_place hin hl hcolors⟩
      · rw [hout] at hok ⊢
        rcases allocates_of_rounds hok with ⟨later, _, hlater⟩
        -- The slot of this round is one of those that the summary lists.
        have hlt : k < Supply.capacity := by
          rw [hlater, List.length_append, List.length_append, List.length_singleton] at hroom
          omega
        have hslot : s.slot.id = k := by
          rw [(Function.spill_eq_ok hspill).1, Supply.slot, hsupply, Nat.mod_eq_of_lt hlt]
        have hadds : w.func.Adds (Register.Reloaded v) [s.slot] s.func := by
          refine Function.adds_spill hspill fun i hi hmem => ?_
          exact Nat.lt_irrefl k (hslot ▸ hbelow i hi _ hmem)
        rcases ih rest (by omega) (hadds.inputs_eq_nil hin) hok (hbelow.spill hspill hslot)
          (Function.slots_spill hspill hsupply)
          (by rw [List.length_append, List.length_singleton]; omega) with
          ⟨hvirtual, home, spilled, slots, hspilled, hslots, hrest⟩
        refine ⟨hvirtual, home, v.id :: spilled, s.slot :: slots, ?_, ?_, ?_⟩
        · rw [hspilled, List.append_assoc]
          rfl
        · rw [hslots, List.append_assoc]
          rfl
        · exact hadds.trans (fun r q t => Register.Filled.of_reloaded) hrest

namespace Function

/-- An allocation that succeeds fills in registers and adds its spill code. -/
theorem adds_allocate {f : Function M} {supply : Supply} {summary : Summary}
    (hbelow : f.SlotsBelow supply.slots) (hok : (f.allocate supply).result = .ok summary)
    (hroom : supply.slots + summary.slots.length ≤ Supply.capacity) :
    (f.allocate supply).workspace.func.hasVirtual = false ∧
      ∃ home : VReg M → Option M.Reg,
        f.Adds (Register.Filled home summary.spilled) summary.slots
          (f.allocate supply).workspace.func := by
  unfold allocate at hok ⊢
  by_cases hvirtual : f.hasVirtual = true
  · rw [if_pos hvirtual] at hok ⊢
    cases hinput : f.remainingInput? with
    | some cause => simp [hinput] at hok
    | none =>
        simp only [hinput] at hok ⊢
        rcases adds_allocateRounds (inputs_of_remainingInput hinput) hok hbelow rfl hroom with
          ⟨hnone, home, spilled, slots, hspilled, hslots, hadds⟩
        rw [List.nil_append] at hspilled hslots
        exact ⟨hnone, home, by rw [hspilled, hslots]; exact hadds⟩
  · rw [if_neg hvirtual] at hok ⊢
    obtain rfl := Except.ok.inj hok
    rw [Bool.not_eq_true] at hvirtual
    exact ⟨hvirtual, fun _ => none, adds_self hvirtual _⟩

/-- Three values for two registers, one of them kept in a slot of the function's own. -/
def ownSlot : Function flat :=
  let r (k : Nat) : VReg flat := ⟨k, FlatClass.mk 2⟩
  let own : Operand flat := .frame ⟨0, 8⟩ 4
  ⟨"own", [
    ⟨[], [Sample.assign .copy (r 0) [.imm 1], Sample.perform .save [own, .ofVReg (r 0)],
      Sample.assign .copy (r 1) [.imm 2], Sample.perform .jmp [.block 1]]⟩,
    ⟨[], [Sample.assign .reload (r 2) [own],
      Sample.assign .add (r 3) [.ofVReg (r 0), .ofVReg (r 2)],
      Sample.assign .sub (r 1) [.ofVReg (r 1), .ofVReg (r 3)],
      Sample.perform .jnz [.ofVReg (r 1), .block 1], Sample.perform .ret [.ofVReg (r 3)]]⟩]⟩

/-- Two registers are spilled, and the save and reload of the own slot stay. -/
theorem ownSlot_allocate :
    ∃ g : Function flat, (ownSlot.allocate ⟨4, 1⟩).workspace.func = g ∧ g.hasVirtual = false ∧
      ∃ home, ownSlot.Adds (Register.Filled home [0, 1]) [⟨1, 8⟩, ⟨2, 8⟩] g := by
  have hok : (ownSlot.allocate ⟨4, 1⟩).result = .ok ⟨3, [0, 1], [⟨1, 8⟩, ⟨2, 8⟩]⟩ := by
    decide +kernel
  exact ⟨_, rfl, adds_allocate (by decide) hok (by decide)⟩

end Function

end RegisterColoring
