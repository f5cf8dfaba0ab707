import Mathlib.Order.WellFounded
import RegisterColoring.Interpretation
import RegisterColoring.Proofs.AddedCode

/-!
# Spilling Keeps Every Run

A spill keeps what a function does on any machine, whatever its opcodes compute. Nothing is
asked of the function but that its terminators write no register: a register may be written
and read any number of times, or be read before it was written, because everything holds a
value from the start.

The run after a spill goes through the run before it, with saves and reloads in between.
Where they have come equally far, the slot holds what the spilled register holds in the run
before, and every register that is not reloaded holds the same in both (`State.Agrees`).
The reloads for terminators come before all of them. Terminators write nothing, so what was
reloaded is still there when control reaches the one that reads it.

## Main definitions

* `State.Agrees`: What two states before and after a spill have in common.
* `Point.Corresponds`: Two runs have come equally far and their states agree.
* `Instr.Mimics`: An instruction finds in one state what another finds in another.
* `Point.Paired`: What a step keeps of two runs.

## Theorems

* `State.Agrees.perform`: An instruction keeps all but the slot in step.
* `Point.Paired.step`: Every step before a spill takes one or more steps after it.
* `Function.visits_iff`, `Function.yields_iff`: Runs in step enter the same blocks and return
  the same values.
* `Function.spill_keeps_runs`: A spill keeps every run.
-/

namespace RegisterColoring

variable {M : Machine} {V : Type}

namespace State

theorem slots_setRegs (s : State M V) (writes : List (Register M × V)) :
    (s.setRegs writes).slots = s.slots := by
  induction writes generalizing s with
  | nil => rfl
  | cons write writes ih => exact ih (s.setReg write.1 write.2)

theorem regs_setRegs_of_not_mem {s : State M V} {writes : List (Register M × V)} {r : Register M}
    (h : r ∉ writes.map Prod.fst) : (s.setRegs writes).regs r = s.regs r := by
  induction writes generalizing s with
  | nil => rfl
  | cons write writes ih =>
      rw [List.map_cons, List.mem_cons, not_or] at h
      have hrest : ((s.setReg write.1 write.2).setRegs writes).regs r =
          (s.setReg write.1 write.2).regs r := ih h.2
      exact hrest.trans (if_neg h.1)

/-- The same writes leave a register equal where it was equal. -/
theorem regs_setRegs_congr {s t : State M V} {r : Register M} (h : t.regs r = s.regs r)
    (writes : List (Register M × V)) : (t.setRegs writes).regs r = (s.setRegs writes).regs r := by
  induction writes generalizing s t with
  | nil => exact h
  | cons write writes ih =>
      refine ih ?_
      simp only [setReg, h]

/-- What states before and after a spill have in common: all registers but the reloaded
    ones, and all slots but the new one, which holds the spilled register. -/
structure Agrees (slot : Slot) (v : VReg M) (Fresh : VReg M → Prop) (s t : State M V) : Prop where
  regs : ∀ r, (∀ w, Fresh w → r ≠ .virtual w) → t.regs r = s.regs r
  held : t.slots slot.id = s.regs (.virtual v)
  slots : ∀ k, k ≠ slot.id → t.slots k = s.slots k

end State

/-- The runs before and after a spill have come equally far: the same blocks were entered,
    the code that is left is the same but for saves and reloads of the slot, and the states
    agree. -/
inductive Point.Corresponds (slot : Slot) (v : VReg M) (Fresh : VReg M → Prop) :
    Point M V → Point M V → Prop where
  | running {trail : List Nat} {rest rest' : List (Instr M)} {s t : State M V}
      (hcode : List.Forall₂ (Instr.Matches (Register.Reloaded v)) rest (strip [slot] rest'))
      (hstate : s.Agrees slot v Fresh t) :
      Corresponds slot v Fresh (.running trail rest s) (.running trail rest' t)
  | returned (trail : List Nat) (values : List V) :
      Corresponds slot v Fresh (.returned trail values) (.returned trail values)
  | stuck (trail : List Nat) : Corresponds slot v Fresh (.stuck trail) (.stuck trail)

/-- Instruction `j` finds in `t` what `i` finds in `s`. -/
structure Instr.Mimics (I : Interpretation M V) (i : Instr M) (s : State M V) (j : Instr M)
    (t : State M V) : Prop where
  op : j.op = i.op
  defs : j.defs = i.defs
  slot : j.slot? = i.slot?
  references : j.references = i.references
  values : j.values I t = i.values I s

/-- The instruction names neither the new slot nor a register that is reloaded, and it writes
    nothing if it is a terminator. -/
structure Instr.Apart (slot : Slot) (Fresh : VReg M → Prop) (i : Instr M) : Prop where
  defs : ∀ w, Fresh w → .virtual w ∉ i.defs
  reads : ∀ w, Fresh w → .virtual w ∉ i.reads
  slots : ∀ s ∈ i.slots, s.id ≠ slot.id
  quiet : i.isTerminator = true → i.defs = []

/-- A terminator and what has become of it, in states in which all that it reads has been
    reloaded. -/
structure Instr.Readied (I : Interpretation M V) (slot : Slot) (v : VReg M)
    (Fresh : VReg M → Prop) (s t : State M V) (i j : Instr M) : Prop where
  terminator : i.isTerminator = true
  apart : i.Apart slot Fresh
  same : i.Matches (Register.Reloaded v) j
  mimics : i.Mimics I s j t

variable {I : Interpretation M V} {slot : Slot} {v : VReg M} {Fresh : VReg M → Prop}

namespace Instr

variable {i j : Instr M} {s t : State M V}

theorem Apart.slot_ne (h : i.Apart slot Fresh) : i.slot? ≠ some slot.id := by
  intro hslot
  unfold slot? at hslot
  split at hslot
  · rename_i first offset rest huses
    refine h.slots first ?_ (Option.some.inj hslot)
    rw [Instr.slots, huses]
    exact List.mem_cons_self
  · exact absurd hslot (by simp)

theorem Apart.not_mem_slots (h : i.Apart slot Fresh) : slot ∉ i.slots :=
  fun hmem => h.slots slot hmem rfl

theorem Apart.saveAfter_eq_nil (h : i.Apart slot Fresh) (hterm : i.isTerminator = true) :
    saveAfter slot v i = [] := by
  refine List.eq_nil_iff_forall_not_mem.mpr fun j hj => ?_
  have hdef := (mem_saveAfter.mp hj).2
  rw [h.quiet hterm] at hdef
  exact absurd hdef (by simp)

theorem stored_eq_none (h : i.isTerminator = true) : i.stored? I s = none := by
  unfold stored?
  split
  · rename_i hop _ _
    rw [isTerminator, hop] at h
    exact absurd h Bool.false_ne_true
  · rfl

/-- A terminator that writes no register leaves the state as it is. -/
theorem perform_of_terminator (hterm : i.isTerminator = true) (hdefs : i.defs = []) :
    i.perform I s = s := by
  simp only [perform, stored_eq_none hterm, writes, hdefs]
  rfl

theorem perform_reloadFrom (w : VReg M) : (reloadFrom slot w).perform I s =
    s.setReg (.virtual w) (s.slots slot.id) :=
  rfl

theorem stored_slot {k : Nat} {x : V} (h : i.stored? I s = some (k, x)) : i.slot? = some k := by
  unfold stored? at h
  split at h
  · rename_i hslot _
    rw [hslot, (Prod.mk.inj (Option.some.inj h)).1]
  · exact absurd h (by simp)

theorem regs_perform (r : Register M) :
    (i.perform I s).regs r = (s.setRegs (i.writes I s)).regs r := by
  unfold perform
  split <;> rfl

/-- An instruction leaves all slots as they are but the one that it names. -/
theorem slots_perform_of_ne {k : Nat} (hk : i.slot? ≠ some k) :
    (i.perform I s).slots k = s.slots k := by
  unfold perform
  split
  · rename_i j x hstored
    have hjk : k ≠ j := fun heq => hk (heq ▸ stored_slot hstored)
    exact (if_neg hjk).trans (congrFun (State.slots_setRegs s _) k)
  · exact congrFun (State.slots_setRegs s _) k

theorem map_fst_writes : (i.writes I s).map Prod.fst = i.defs := by
  rw [writes, List.map_map]
  exact List.zipIdx_map_fst 0 i.defs

theorem regs_perform_of_not_mem {r : Register M} (hr : r ∉ i.defs) :
    (i.perform I s).regs r = s.regs r := by
  rw [regs_perform]
  exact State.regs_setRegs_of_not_mem (map_fst_writes.symm ▸ hr)

namespace Mimics

variable (h : i.Mimics I s j t)
include h

/-- The same values are written, if a slot that is read holds the same. -/
theorem writes (hslots : ∀ k, i.slot? = some k → t.slots k = s.slots k) :
    j.writes I t = i.writes I s := by
  have hresult : ∀ n, j.result I t n = i.result I s n := by
    intro n
    unfold result
    rw [h.op, h.slot, h.values]
    split
    · rename_i hslot
      exact hslots _ hslot
    · rfl
  simp only [Instr.writes, h.defs, hresult]

theorem stored : j.stored? I t = i.stored? I s := by
  unfold stored?
  rw [h.op, h.slot, h.values]

theorem isTerminator : j.isTerminator = i.isTerminator :=
  congrArg Op.isTerminator h.op

end Mimics

end Instr

namespace State.Agrees

variable {s t : State M V} {i j : Instr M} (h : s.Agrees slot v Fresh t)
include h

theorem value {u : Operand M} (hu : ∀ w, Fresh w → u ≠ .reg (.virtual w)) :
    t.value I u = s.value I u := by
  cases u with
  | reg r => exact h.regs r fun w hw hr => hu w hw (congrArg Operand.reg hr)
  | _ => rfl

/-- An instruction that does not read the spilled register stays as it is. -/
theorem mimics (hi : i.Apart slot Fresh) : i.Mimics I s i t where
  op := rfl
  defs := rfl
  slot := rfl
  references := rfl
  values := List.map_congr_left fun _ hu => h.value fun w hw hr =>
    hi.reads w hw (Instr.mem_reads.mpr (hr ▸ hu))

/-- An instruction that reads the spilled register reads a reloaded one. -/
theorem mimics_readInstead (hi : i.Apart slot Fresh) {w : VReg M}
    (hw : t.regs (.virtual w) = s.regs (.virtual v)) : i.Mimics I s (i.readInstead v w) t where
  op := rfl
  defs := rfl
  slot := Instr.slot_rename (i.uses_readInstead w)
  references := i.references_readInstead w
  values := by
    rw [Instr.values, Instr.values, Instr.readInstead, List.map_map]
    refine List.map_congr_left fun u hu => ?_
    by_cases huv : u = .ofVReg v
    · rw [Function.comp_apply, if_pos huv, huv]
      exact hw
    · rw [Function.comp_apply, if_neg huv]
      exact h.value fun w hw hr => hi.reads w hw (Instr.mem_reads.mpr (hr ▸ hu))

/-- A reload fetches the spilled register. -/
theorem reload {w : VReg M} (hw : Fresh w) :
    s.Agrees slot v Fresh ((reloadFrom slot w).perform I t) where
  regs r hr := (if_neg (hr w hw)).trans (h.regs r hr)
  held := h.held
  slots := h.slots

omit h in
theorem regs_reload (w u : VReg M) : ((reloadFrom slot w).perform I t).regs (.virtual u) =
    if u = w then t.slots slot.id else t.regs (.virtual u) := by
  simp [Instr.perform_reloadFrom, setReg]

/-- After an instruction the states agree, but for a slot that is still to be written. -/
theorem perform (hi : i.Apart slot Fresh) (hj : i.Mimics I s j t) :
    (∀ r, (∀ w, Fresh w → r ≠ .virtual w) →
      (j.perform I t).regs r = (i.perform I s).regs r) ∧
    (∀ k, k ≠ slot.id → (j.perform I t).slots k = (i.perform I s).slots k) ∧
    (j.perform I t).slots slot.id = s.regs (.virtual v) := by
  have hwrites := hj.writes fun k hk => h.slots k fun heq => hi.slot_ne (heq ▸ hk)
  refine ⟨fun r hr => ?_, fun k hk => ?_, ?_⟩
  · rw [Instr.regs_perform, Instr.regs_perform, hwrites]
    exact regs_setRegs_congr (h.regs r hr) _
  · unfold Instr.perform
    rw [hj.stored]
    split
    · simp only [setSlot, slots_setRegs, h.slots k hk]
    · simp only [slots_setRegs, h.slots k hk]
  · rw [Instr.slots_perform_of_ne (hj.slot ▸ hi.slot_ne)]
    exact h.held

end State.Agrees

namespace Function

variable (g : Function M) {trail : List Nat} {rest : List (Instr M)} {s t : State M V}

theorem step_of_not_terminator {i : Instr M} (h : i.isTerminator = false) :
    g.step I (.running trail (i :: rest) s) = .running trail rest (i.perform I s) := by
  simp [step, h]

theorem step_of_terminator {i : Instr M} (h : i.isTerminator = true) :
    g.step I (.running trail (i :: rest) s) = g.follow I trail i rest s := by
  simp [step, h]

/-- A save after a write brings the slot up to date. -/
theorem steps_saveAfter (trail : List Nat) (rest : List (Instr M)) {i j : Instr M}
    (h : s.Agrees slot v Fresh t) (hi : i.Apart slot Fresh) (hj : i.Mimics I s j t) :
    ∃ n t', g.steps I n (.running trail (saveAfter slot v i ++ rest) (j.perform I t)) =
      .running trail rest t' ∧ (i.perform I s).Agrees slot v Fresh t' := by
  rcases h.perform hi hj with ⟨hregs, hslots, hheld⟩
  by_cases hdef : .virtual v ∈ i.defs
  · -- The slot is behind the register until the save has copied it.
    have hv := hregs (.virtual v) fun w hw heq => hi.defs w hw (heq ▸ hdef)
    refine ⟨1, (saveTo slot v).perform I (j.perform I t), ?_, hregs, ?_, fun k hk => ?_⟩
    · rw [saveAfter, if_pos (Instr.writesV_iff.mpr hdef)]
      exact g.step_of_not_terminator (i := saveTo slot v) rfl
    · exact (if_pos rfl).trans hv
    · exact (if_neg hk).trans (hslots k hk)
  · refine ⟨0, j.perform I t, ?_, hregs, ?_, hslots⟩
    · rw [saveAfter, if_neg fun hw => hdef (Instr.writesV_iff.mp hw)]
      rfl
    · rw [hheld, Instr.regs_perform_of_not_mem hdef]

/-- The reloads before terminators fetch the spilled register, one after the other. -/
theorem steps_reloads (trail : List Nat) (rest : List (Instr M)) {reloads : List (Instr M)}
    (hreloads : ∀ j ∈ reloads, ∃ w, Fresh w ∧ j = reloadFrom slot w)
    (h : s.Agrees slot v Fresh t) :
    ∃ t', g.steps I reloads.length (.running trail (reloads ++ rest) t) = .running trail rest t' ∧
      s.Agrees slot v Fresh t' ∧
      ∀ w, reloadFrom slot w ∈ reloads ∨ t.regs (.virtual w) = s.regs (.virtual v) →
        t'.regs (.virtual w) = s.regs (.virtual v) := by
  induction reloads generalizing t with
  | nil => exact ⟨t, rfl, h, fun w hw => hw.resolve_left (by simp)⟩
  | cons j reloads ih =>
      rcases hreloads j List.mem_cons_self with ⟨w, hw, rfl⟩
      rcases ih (fun j hj => hreloads j (List.mem_cons_of_mem _ hj)) (h.reload hw) with
        ⟨t', hsteps, hagrees, hloaded⟩
      refine ⟨t', hsteps, hagrees, fun u hu => hloaded u ?_⟩
      rw [State.Agrees.regs_reload]
      by_cases huw : u = w
      · -- Whether or not the same register is reloaded again, it holds the slot's value.
        exact Or.inr ((if_pos huw).trans h.held)
      · rw [if_neg huw]
        refine hu.imp_left fun hmem => (List.mem_cons.mp hmem).resolve_left fun heq => huw ?_
        simpa [reloadFrom] using heq

end Function

/-- What a step keeps of the runs before and after a spill. Among the terminators, all that
    they read has been reloaded. -/
inductive Point.Paired (I : Interpretation M V) (slot : Slot) (v : VReg M)
    (Fresh : VReg M → Prop) : Point M V → Point M V → Prop where
  | straight {trail : List Nat} {code code' run reloads run' : List (Instr M)} {s t : State M V}
      (hcode : SpillsTo slot v Fresh code code') (hrun : Hoisted slot v Fresh run reloads run')
      (hapart : ∀ i ∈ code ++ run, i.Apart slot Fresh)
      (hterm : ∀ i ∈ run, i.isTerminator = true) (hstate : s.Agrees slot v Fresh t) :
      Paired I slot v Fresh (.running trail (code ++ run) s)
        (.running trail (code' ++ (reloads ++ run')) t)
  | leaving {trail : List Nat} {run run' : List (Instr M)} {s t : State M V}
      (hrun : List.Forall₂ (Instr.Readied I slot v Fresh s t) run run')
      (hstate : s.Agrees slot v Fresh t) :
      Paired I slot v Fresh (.running trail run s) (.running trail run' t)
  | returned (trail : List Nat) (values : List V) :
      Paired I slot v Fresh (.returned trail values) (.returned trail values)
  | stuck (trail : List Nat) : Paired I slot v Fresh (.stuck trail) (.stuck trail)

/-- After the reloads, every terminator finds what it found before. -/
theorem Hoisted.readied {run reloads run' : List (Instr M)}
    (h : Hoisted slot v Fresh run reloads run') (hapart : ∀ i ∈ run, i.Apart slot Fresh)
    (hterm : ∀ i ∈ run, i.isTerminator = true) {s t : State M V} (hstate : s.Agrees slot v Fresh t)
    (hloaded : ∀ w, reloadFrom slot w ∈ reloads → t.regs (.virtual w) = s.regs (.virtual v)) :
    List.Forall₂ (Instr.Readied I slot v Fresh s t) run run' := by
  induction h with
  | nil => exact .nil
  | @keep i _ run _ _ _ ih =>
      have hi := hapart i List.mem_cons_self
      refine .cons ⟨hterm i List.mem_cons_self, hi, .refl fun r _ => Or.inl rfl,
        hstate.mimics hi⟩ ?_
      exact ih (fun j hj => hapart j (List.mem_cons_of_mem _ hj))
        (fun j hj => hterm j (List.mem_cons_of_mem _ hj)) hloaded
  | @reload i _ w _ run _ _ _ ih =>
      have hi := hapart i List.mem_cons_self
      refine .cons ⟨hterm i List.mem_cons_self, hi, .readInstead (.refl v) (.virtual v w),
        hstate.mimics_readInstead hi (hloaded w List.mem_cons_self)⟩ ?_
      exact ih (fun j hj => hapart j (List.mem_cons_of_mem _ hj))
        (fun j hj => hterm j (List.mem_cons_of_mem _ hj))
        fun u hu => hloaded u (List.mem_cons_of_mem _ hu)

namespace Point.Paired

/-- Paired points have come equally far. -/
theorem corresponds {p q : Point M V} (h : p.Paired I slot v Fresh q) :
    p.Corresponds slot v Fresh q := by
  cases h with
  | @straight _ code _ run _ _ _ _ hcode hrun hapart _ hstate =>
      refine .running ?_ hstate
      rw [strip_append]
      exact List.rel_append
        (hcode.matches_strip fun i hi => (hapart i (List.mem_append_left _ hi)).not_mem_slots)
        (hrun.matches_strip fun i hi => (hapart i (List.mem_append_right _ hi)).not_mem_slots)
  | leaving hrun hstate =>
      have hsame := hrun.imp fun i j hij => hij.same
      refine .running ?_ hstate
      rw [strip_eq_self (Instr.Matches.not_mem_slots hsame fun i hi => ?_)]
      · exact hsame
      · rcases exists_right_of_forall₂ hrun hi with ⟨j, _, hij⟩
        exact hij.apart.not_mem_slots
  | returned trail values => exact .returned trail values
  | stuck trail => exact .stuck trail

section Stepping

variable {f g : Function M} (hblocks : List.Forall₂ (Block.SpillsTo slot v Fresh) f.blocks g.blocks)
  (hapart : ∀ i ∈ f.instructions, i.Apart slot Fresh) {s t : State M V}
  (hstate : s.Agrees slot v Fresh t) {trail : List Nat}
include hblocks hapart hstate

/-- At the start of a block the runs are paired. -/
theorem enter (b : Nat) :
    (f.enter trail s b).Paired I slot v Fresh (g.enter trail t b) := by
  unfold Function.enter
  cases hb : f.blocks[b]? with
  | none =>
      have hnone : g.blocks[b]? = none := by
        rw [List.getElem?_eq_none_iff] at hb ⊢
        exact hblocks.length_eq ▸ hb
      rw [hnone]
      exact .stuck trail
  | some block =>
      rcases getElem?_of_forall₂ hblocks hb with ⟨c, hc, hspills⟩
      rcases hspills.code with ⟨body, reloads, run, hbody, hrun, hcode⟩
      rw [hc]
      simp only [hcode, ← block.body_append_run, List.append_assoc]
      refine .straight hbody hrun (fun i hi => ?_) (fun i hi => Block.isTerminator_of_mem_run hi)
        hstate
      rw [block.body_append_run] at hi
      exact hapart i (Function.mem_instructions (List.mem_of_getElem? hb) hi)

/-- A terminator goes the same way in both runs. -/
theorem follow {i j : Instr M} {rest rest' : List (Instr M)} (hi : i.Apart slot Fresh)
    (hterm : i.isTerminator = true) (hj : i.Mimics I s j t)
    (hnext : Paired I slot v Fresh (.running trail rest s) (.running trail rest' t)) :
    (f.follow I trail i rest s).Paired I slot v Fresh (g.follow I trail j rest' t) := by
  have hdefs := hi.quiet hterm
  unfold Function.follow
  rw [hj.op, hj.values, hj.references, Instr.perform_of_terminator hterm hdefs,
    Instr.perform_of_terminator (hj.isTerminator ▸ hterm) (hj.defs ▸ hdefs)]
  cases I.choose i.op (i.values I s) with
  | next => exact hnext
  | branch k =>
      cases hb : i.references[k]? with
      | none =>
          simp only [hb]
          exact .stuck trail
      | some b =>
          simp only [hb]
          exact enter hblocks hapart hstate b
  | leave => exact .returned trail _

/-- Terminators that find what was reloaded are run side by side. -/
theorem leave {run run' : List (Instr M)}
    (hrun : List.Forall₂ (Instr.Readied I slot v Fresh s t) run run') :
    (f.step I (.running trail run s)).Paired I slot v Fresh
      (g.step I (.running trail run' t)) := by
  cases hrun with
  | nil => exact .stuck trail
  | cons hij hrest =>
      rw [Function.step_of_terminator f hij.terminator,
        Function.step_of_terminator g (hij.mimics.isTerminator.trans hij.terminator)]
      exact follow hblocks hapart hstate hij.apart hij.terminator hij.mimics
        (.leaving hrest hstate)

/-- An instruction before the trailing terminators, and the save that may follow it. -/
theorem instr (trail : List Nat) {i j : Instr M} {code code' run reloads run' : List (Instr M)}
    (hi : i.Apart slot Fresh) (hj : i.Mimics I s j t) (hcode : SpillsTo slot v Fresh code code')
    (hrun : Hoisted slot v Fresh run reloads run')
    (hold : ∀ i ∈ code ++ run, i.Apart slot Fresh) (hterm : ∀ i ∈ run, i.isTerminator = true) :
    ∃ n, (f.step I (.running trail (i :: (code ++ run)) s)).Paired I slot v Fresh
      (g.steps I (n + 1)
        (.running trail (j :: (saveAfter slot v i ++ (code' ++ (reloads ++ run')))) t)) := by
  -- Terminators may stand here too, as long as something else follows them.
  by_cases hjump : i.isTerminator = true
  · refine ⟨0, ?_⟩
    rw [Function.steps_succ, Function.step_of_terminator f hjump,
      Function.step_of_terminator g (hj.isTerminator.trans hjump), hi.saveAfter_eq_nil hjump,
      List.nil_append]
    exact follow hblocks hapart hstate hi hjump hj (.straight hcode hrun hold hterm hstate)
  · rw [Bool.not_eq_true] at hjump
    rcases g.steps_saveAfter trail (code' ++ (reloads ++ run')) hstate hi hj with
      ⟨n, t', hsteps, hstate'⟩
    refine ⟨n, ?_⟩
    rw [Function.steps_succ, Function.step_of_not_terminator f hjump,
      Function.step_of_not_terminator g (hj.isTerminator.trans hjump), hsteps]
    exact .straight hcode hrun hold hterm hstate'

end Stepping

variable {f g : Function M} (hblocks : List.Forall₂ (Block.SpillsTo slot v Fresh) f.blocks g.blocks)
  (hapart : ∀ i ∈ f.instructions, i.Apart slot Fresh)
include hblocks hapart

/-- Every step before the spill takes one or more steps after it. -/
theorem step {p q : Point M V} (h : p.Paired I slot v Fresh q) :
    ∃ n, (f.step I p).Paired I slot v Fresh (g.steps I (n + 1) q) := by
  cases h with
  | returned trail values => exact ⟨0, .returned trail values⟩
  | stuck trail => exact ⟨0, .stuck trail⟩
  | leaving hrun hstate => exact ⟨0, leave hblocks hapart hstate hrun⟩
  | @straight trail code code' run reloads run' s t hcode hrun hold hterm hstate =>
      cases hcode with
      | nil =>
          -- The reloads come before the first terminator.
          rcases g.steps_reloads (I := I) trail run' (fun j hj => hrun.mem_reloads hj) hstate with
            ⟨t', hsteps, hstate', hloaded⟩
          refine ⟨reloads.length, ?_⟩
          rw [List.nil_append, List.nil_append, Function.steps_add, hsteps]
          exact leave hblocks hapart hstate'
            (hrun.readied hold hterm hstate' fun w hw => hloaded w (Or.inl hw))
      | @keep i hread code code' hrest =>
          have hi := hold i (by simp)
          rw [List.cons_append, List.cons_append, List.append_assoc]
          exact instr hblocks hapart hstate trail hi (hstate.mimics hi) hrest hrun
            (fun j hj => hold j (List.mem_cons_of_mem _ hj)) hterm
      | @reload i hread w hw code code' hrest =>
          have hi := hold i (by simp)
          have hstate' := hstate.reload (I := I) hw
          have hvalue : ((reloadFrom slot w).perform I t).regs (.virtual w) =
              s.regs (.virtual v) := by
            rw [State.Agrees.regs_reload, if_pos rfl, hstate.held]
          rcases instr hblocks hapart hstate' trail hi (hstate'.mimics_readInstead hi hvalue)
            hrest hrun (fun j hj => hold j (List.mem_cons_of_mem _ hj)) hterm with ⟨n, hn⟩
          refine ⟨n + 1, ?_⟩
          rw [List.cons_append, List.cons_append, List.cons_append, List.append_assoc,
            Function.steps_succ, Function.step_of_not_terminator g rfl]
          exact hn

end Point.Paired

namespace Point.Corresponds

variable {p q : Point M V} (h : p.Corresponds slot v Fresh q)
include h

theorem trail_eq : q.trail = p.trail := by
  cases h <;> rfl

theorem returned_iff {trail : List Nat} {values : List V} :
    p = .returned trail values ↔ q = .returned trail values := by
  cases h <;> simp

end Point.Corresponds

/-- A pace at which the second of two runs keeps up with the first. -/
theorem exists_pace {P : Nat → Nat → Prop} (hstart : P 0 0)
    (hstep : ∀ n m, P n m → ∃ k, m < k ∧ P (n + 1) k) :
    ∃ φ : Nat → Nat, StrictMono φ ∧ ∀ n, P n (φ n) := by
  choose! next hlt hnext using hstep
  let φ : Nat → Nat := fun n => Nat.rec 0 (fun n m => next n m) n
  have hφ : ∀ n, P n (φ n) := fun n => Nat.rec hstart (fun n ih => hnext n _ ih) n
  exact ⟨φ, strictMono_nat_of_lt_succ fun n => hlt n _ (hφ n), hφ⟩

namespace Function

variable {f g : Function M} {s t : State M V}

theorem pointAfter_succ (n : Nat) :
    f.pointAfter I s (n + 1) = f.step I (f.pointAfter I s n) :=
  f.steps_add I n 1 _

theorem pointAfter_add (m n : Nat) :
    f.pointAfter I s (m + n) = f.steps I n (f.pointAfter I s m) :=
  f.steps_add I m n _

theorem trail_enter (trail : List Nat) (b : Nat) : trail <:+ (f.enter trail s b).trail := by
  unfold enter
  cases f.blocks[b]? with
  | none => exact List.suffix_refl trail
  | some block => exact List.suffix_cons b trail

/-- A step keeps the blocks that were entered. -/
theorem trail_step (p : Point M V) : p.trail <:+ (f.step I p).trail := by
  cases p with
  | returned trail values => exact List.suffix_refl trail
  | stuck trail => exact List.suffix_refl trail
  | running trail rest s =>
      cases rest with
      | nil => exact List.suffix_refl trail
      | cons i rest =>
          by_cases hterm : i.isTerminator = true
          · rw [step_of_terminator f hterm, follow]
            split
            · exact List.suffix_refl trail
            · split
              · exact trail_enter trail _
              · exact List.suffix_refl trail
            · exact List.suffix_refl trail
          · rw [step_of_not_terminator f (Bool.not_eq_true _ ▸ hterm)]
            exact List.suffix_refl trail

theorem trail_pointAfter {m n : Nat} (h : m ≤ n) :
    (f.pointAfter I s m).trail <:+ (f.pointAfter I s n).trail := by
  induction h with
  | refl => exact List.suffix_refl _
  | step _ ih =>
      rw [pointAfter_succ]
      exact ih.trans (trail_step _)

/-- Once a function has returned, the run stays there. -/
theorem pointAfter_of_returned {m n : Nat} (h : m ≤ n) {trail : List Nat} {values : List V}
    (hm : f.pointAfter I s m = .returned trail values) :
    f.pointAfter I s n = .returned trail values := by
  induction h with
  | refl => exact hm
  | step _ ih => rw [pointAfter_succ, ih]; rfl

section Pace

variable {φ : Nat → Nat} (hφ : StrictMono φ)
  (h : ∀ n, (f.pointAfter I s n).Corresponds slot v Fresh (g.pointAfter I t (φ n)))
include hφ h

/-- Runs in step enter the same blocks. -/
theorem visits_iff (trail : List Nat) : f.Visits I s trail ↔ g.Visits I t trail := by
  constructor
  · rintro ⟨n, hn⟩
    exact ⟨φ n, (h n).trail_eq.symm ▸ hn⟩
  · -- At step `φ m` the second run has come at least as far as at step `m`.
    rintro ⟨m, hm⟩
    exact ⟨m, (h m).trail_eq ▸ hm.trans (trail_pointAfter hφ.le_apply)⟩

/-- Runs in step return the same values. -/
theorem yields_iff (values : List V) : f.Yields I s values ↔ g.Yields I t values := by
  constructor
  · rintro ⟨n, trail, hn⟩
    exact ⟨φ n, trail, (h n).returned_iff.mp hn⟩
  · rintro ⟨m, trail, hm⟩
    exact ⟨m, trail, (h m).returned_iff.mpr (pointAfter_of_returned hφ.le_apply hm)⟩

end Pace

/-- The run after a spill keeps up with the run before it. -/
theorem exists_pace_of_spillsTo
    (hblocks : List.Forall₂ (Block.SpillsTo slot v Fresh) f.blocks g.blocks)
    (hapart : ∀ i ∈ f.instructions, i.Apart slot Fresh) (hstate : s.Agrees slot v Fresh t) :
    ∃ φ : Nat → Nat, StrictMono φ ∧
      ∀ n, (f.pointAfter I s n).Paired I slot v Fresh (g.pointAfter I t (φ n)) := by
  refine exists_pace
    (P := fun n m => (f.pointAfter I s n).Paired I slot v Fresh (g.pointAfter I t m))
    (Point.Paired.enter hblocks hapart hstate 0) fun n m hnm => ?_
  rcases hnm.step hblocks hapart with ⟨k, hk⟩
  refine ⟨m + (k + 1), by omega, ?_⟩
  rw [pointAfter_succ, pointAfter_add]
  exact hk

end Function

/-- A register that a spill of `v` has drawn for its reloads. -/
def Spill.Drawn (x : Spill M) (v w : VReg M) : Prop :=
  w.id ∈ x.reloads ∧ w.cls = v.cls

namespace Function

/-- A spill keeps every run, whatever the opcodes mean. -/
theorem spill_keeps_runs {f : Function M} {v : VReg M} {supply : Supply}
    (hin : ∀ b ∈ f.blocks, b.inputs = [])
    (hquiet : ∀ i ∈ f.instructions, i.isTerminator = true → i.defs = [])
    (hfresh : supply.FreshFor f (f.instructions.countP (·.readsV v)))
    (hslots : f.SlotsBelow supply.slots) (hroom : supply.slots < Supply.capacity) :
    ∃ x, f.spill v supply = .ok x ∧ (∀ w, x.Drawn v w → .virtual w ∉ f.registers) ∧
      ∀ {V : Type} (I : Interpretation M V) (s t : State M V),
        s.Agrees x.slot v (x.Drawn v) t →
          (∀ trail, f.Visits I s trail ↔ x.func.Visits I t trail) ∧
          (∀ values, f.Yields I s values ↔ x.func.Yields I t values) ∧
          ∃ φ : Nat → Nat, StrictMono φ ∧ ∀ n,
            (f.pointAfter I s n).Corresponds x.slot v (x.Drawn v)
              (x.func.pointAfter I t (φ n)) := by
  rcases exists_spill hin v supply with ⟨x, hx⟩
  rw [← length_reloads v hx] at hfresh
  have hspills := spillsTo_of_spill hx hfresh
  have hslot : x.slot.id = supply.slots := by
    rw [(spill_eq_ok hx).1, Supply.slot, Nat.mod_eq_of_lt hroom]
  have hapart : ∀ i ∈ f.instructions, i.Apart x.slot (x.Drawn v) := by
    intro i hi
    rcases List.mem_flatMap.mp hi with ⟨b, hb, hib⟩
    have hstale := hspills.stale_code hb i hib
    refine ⟨fun w hw => (hstale w hw).1, fun w hw => (hstale w hw).2, fun other hmem => ?_,
      hquiet i hi⟩
    rw [hslot]
    exact Nat.ne_of_lt (hslots i hi other hmem)
  refine ⟨x, hx, hspills.stale, fun I s t hstate => ?_⟩
  rcases exists_pace_of_spillsTo (I := I) hspills.blocks hapart hstate with ⟨φ, hφ, hpaired⟩
  have hcorr := fun n => (hpaired n).corresponds
  exact ⟨visits_iff hφ hcorr, yields_iff hφ hcorr, φ, hφ, hcorr⟩

/-- Sums and differences that wrap around, and jumps on what is not zero. -/
def wrapping : Interpretation flat Int64 where
  literal
    | .imm x => x
    | _ => 0
  result
    | .common .sub, x :: y :: _, _ => x - y
    | _, values, _ => values.sum
  choose
    | .common .jnz, values => if values.head? = some 0 then .next else .branch 0
    | .common .jmp, _ => .branch 0
    | _, _ => .leave

/-- A loop that counts one register down and adds it to another. -/
def countAndAdd : Function flat :=
  let r (k : Nat) : VReg flat := ⟨k, FlatClass.mk 4⟩
  ⟨"f", [
    ⟨[], [Sample.assign .copy (r 0) [.imm 3], Sample.perform .jmp [.block 1]]⟩,
    ⟨[], [Sample.assign .add (r 1) [.ofVReg (r 1), .ofVReg (r 0)],
      Sample.assign .sub (r 0) [.ofVReg (r 0), .imm 1],
      Sample.perform .jnz [.ofVReg (r 0), .block 1],
      Sample.perform .ret [.ofVReg (r 1), .ofVReg (r 0)]]⟩]⟩

/-- The counter is spilled. It is written in two places, one of which reads it as well, and
    two terminators read it. -/
theorem countAndAdd_spill : ∃ x, countAndAdd.spill ⟨0, FlatClass.mk 4⟩ ⟨2, 0⟩ = .ok x ∧
    x.func.Yields wrapping ⟨fun _ => 0, fun _ => 0⟩ [6, 0] := by
  have hfresh : Supply.FreshFor ⟨2, 0⟩ countAndAdd
      (countAndAdd.instructions.countP (·.readsV ⟨0, FlatClass.mk 4⟩)) := by decide
  rcases spill_keeps_runs (by decide) (by decide) hfresh (by decide) (by decide) with
    ⟨x, hx, _, hruns⟩
  have hyields : countAndAdd.Yields wrapping ⟨fun _ => 0, fun _ => 0⟩ [6, 0] := ⟨13, _, rfl⟩
  refine ⟨x, hx, ((hruns wrapping _ _ ?_).2.1 _).mp hyields⟩
  exact ⟨fun _ _ => rfl, rfl, fun _ _ => rfl⟩

end Function

end RegisterColoring
