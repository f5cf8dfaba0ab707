import RegisterColoring.Spilling
import RegisterColoring.Proofs.LoweredFlow

/-!
# Code After a Spill

Spilling a register adds reloads and saves to the code and leaves the rest of it in
place. Three kinds of registers have to be told apart. The spilled register is now
read only by the save that follows its write. A reloaded register is read only by
the instruction it was reloaded for. Neither is live across blocks. Every other
register is read and written in the same order as before.

`SpillsTo` and `Hoisted` say what becomes of straight-line code and of the
terminators, without the supply that names the reloaded registers; all that
matters about these is that they are new.

## Main definitions

* `SpillsTo`, `Hoisted`: Code before and after a spill.
* `SpilledFrom`: Where an instruction of spilled code comes from.
* `Block.SpillsTo`, `Function.SpillsTo`: The same for a block and a function.
* `Function.Numbered`: The supply goes on above all ids in use.

## Theorems

* `Block.SpillsTo.cut`: Where the terminators of a block begin after a spill.
* `Function.countP_spill`: How many instructions of a kind a spill adds.
* `Function.spillsTo_of_spill`: What spilling does to a function.
* `Function.Numbered.spill`: A spill keeps the supply above all ids.
* `Block.SpillsTo.exposes_iff`, `Block.SpillsTo.not_exposes`: Which registers a block needs.
* `Function.Tractable.spill`: The analysis stays exact.
-/

namespace RegisterColoring

variable {M : Machine}

/-- The instruction after a write that stores the spilled register. -/
def saveAfter (slot : Slot) (v : VReg M) (i : Instr M) : List (Instr M) :=
  if i.writesV v then [saveTo slot v] else []

/-- Straight-line code before and after `v` is spilled, with reloads into registers
    that are fresh. -/
inductive SpillsTo (slot : Slot) (v : VReg M) (Fresh : VReg M → Prop) :
    List (Instr M) → List (Instr M) → Prop where
  | nil : SpillsTo slot v Fresh [] []
  | keep {i : Instr M} (hread : .virtual v ∉ i.reads) {code code' : List (Instr M)}
      (rest : SpillsTo slot v Fresh code code') :
      SpillsTo slot v Fresh (i :: code) (i :: (saveAfter slot v i ++ code'))
  | reload {i : Instr M} (hread : .virtual v ∈ i.reads) {w : VReg M} (hw : Fresh w)
      {code code' : List (Instr M)} (rest : SpillsTo slot v Fresh code code') :
      SpillsTo slot v Fresh (i :: code)
        (reloadFrom slot w :: i.readInstead v w :: (saveAfter slot v i ++ code'))

/-- Terminators before a spill, and the reloads and terminators after it. -/
inductive Hoisted (slot : Slot) (v : VReg M) (Fresh : VReg M → Prop) :
    List (Instr M) → List (Instr M) → List (Instr M) → Prop where
  | nil : Hoisted slot v Fresh [] [] []
  | keep {i : Instr M} (hread : .virtual v ∉ i.reads) {run reloads run' : List (Instr M)}
      (rest : Hoisted slot v Fresh run reloads run') :
      Hoisted slot v Fresh (i :: run) reloads (i :: run')
  | reload {i : Instr M} (hread : .virtual v ∈ i.reads) {w : VReg M} (hw : Fresh w)
      {run reloads run' : List (Instr M)} (rest : Hoisted slot v Fresh run reloads run') :
      Hoisted slot v Fresh (i :: run) (reloadFrom slot w :: reloads) (i.readInstead v w :: run')

/-- The instructions that code can have after `v` is spilled from it. -/
inductive SpilledFrom (slot : Slot) (v : VReg M) (Fresh : VReg M → Prop)
    (code : List (Instr M)) : Instr M → Prop where
  | kept {i : Instr M} (hi : i ∈ code) : SpilledFrom slot v Fresh code i
  | changed {i : Instr M} (hi : i ∈ code) {w : VReg M} (hw : Fresh w) :
      SpilledFrom slot v Fresh code (i.readInstead v w)
  | reload {w : VReg M} (hw : Fresh w) : SpilledFrom slot v Fresh code (reloadFrom slot w)
  | save {i : Instr M} (hi : i ∈ code) (hdef : .virtual v ∈ i.defs) :
      SpilledFrom slot v Fresh code (saveTo slot v)

/-- A block before and after `v` is spilled. -/
structure Block.SpillsTo (slot : Slot) (v : VReg M) (Fresh : VReg M → Prop) (b c : Block M) :
    Prop where
  inputs : c.inputs = b.inputs
  code : ∃ body reloads run, RegisterColoring.SpillsTo slot v Fresh b.body body ∧
    Hoisted slot v Fresh b.run reloads run ∧ c.code = body ++ reloads ++ run

variable {slot : Slot} {v : VReg M} {Fresh : VReg M → Prop}

theorem Instr.readsV_iff {i : Instr M} : i.readsV v = true ↔ .virtual v ∈ i.reads := by
  rw [Instr.readsV, List.contains_iff_mem]

theorem Instr.writesV_iff {i : Instr M} : i.writesV v = true ↔ .virtual v ∈ i.defs := by
  rw [Instr.writesV, List.contains_iff_mem]

theorem spillBody_spillsTo {supply : Supply} {code : List (Instr M)}
    (hfresh : ∀ id ∈ (spillBody slot v supply code).2, Fresh ⟨id, v.cls⟩) :
    SpillsTo slot v Fresh code (spillBody slot v supply code).1 := by
  induction code generalizing supply with
  | nil => exact .nil
  | cons i rest ih =>
      by_cases hread : i.readsV v = true
      · simp only [spillBody, hread, if_true] at hfresh ⊢
        refine .reload (Instr.readsV_iff.mp hread) (hfresh _ List.mem_cons_self) (ih ?_)
        exact fun id hid => hfresh id (List.mem_cons_of_mem _ hid)
      · simp only [spillBody, hread] at hfresh ⊢
        exact .keep (fun h => hread (Instr.readsV_iff.mpr h)) (ih hfresh)

theorem spillRun_hoisted {supply : Supply} {run : List (Instr M)}
    (hfresh : ∀ id ∈ (spillRun slot v supply run).2.2, Fresh ⟨id, v.cls⟩) :
    Hoisted slot v Fresh run (spillRun slot v supply run).1 (spillRun slot v supply run).2.1 := by
  induction run generalizing supply with
  | nil => exact .nil
  | cons i rest ih =>
      by_cases hread : i.readsV v = true
      · simp only [spillRun, hread, if_true] at hfresh ⊢
        refine .reload (Instr.readsV_iff.mp hread) (hfresh _ List.mem_cons_self) (ih ?_)
        exact fun id hid => hfresh id (List.mem_cons_of_mem _ hid)
      · simp only [spillRun, hread] at hfresh ⊢
        exact .keep (fun h => hread (Instr.readsV_iff.mpr h)) (ih hfresh)

theorem spillBlocks_spillsTo {supply : Supply} {blocks : List (Block M)}
    (hfresh : ∀ id ∈ (spillBlocks slot v supply blocks).2, Fresh ⟨id, v.cls⟩) :
    List.Forall₂ (Block.SpillsTo slot v Fresh) blocks (spillBlocks slot v supply blocks).1 := by
  induction blocks generalizing supply with
  | nil => exact .nil
  | cons b rest ih =>
      simp only [spillBlocks, spillBlock] at hfresh ⊢
      refine .cons ⟨rfl, _, _, _, spillBody_spillsTo fun id hid => hfresh id (by simp [hid]),
        spillRun_hoisted fun id hid => hfresh id (by simp [hid]), rfl⟩ (ih fun id hid => ?_)
      exact hfresh id (List.mem_append.mpr (Or.inr hid))

theorem Instr.mem_reads_readInstead {i : Instr M} {w : VReg M} {r : Register M} :
    r ∈ (i.readInstead v w).reads ↔
      (r ∈ i.reads ∧ r ≠ .virtual v) ∨ (r = .virtual w ∧ .virtual v ∈ i.reads) := by
  simp only [Instr.mem_reads, Instr.readInstead, List.mem_map]
  constructor
  · rintro ⟨u, hu, heq⟩
    by_cases huv : u = .ofVReg v
    · rw [if_pos huv] at heq
      rw [huv] at hu
      exact Or.inr ⟨(Operand.reg.inj heq).symm, hu⟩
    · rw [if_neg huv] at heq
      subst heq
      exact Or.inl ⟨hu, fun hr => huv (by rw [hr]; rfl)⟩
  · rintro (⟨hr, hne⟩ | ⟨rfl, hv⟩)
    · exact ⟨.reg r, hr, if_neg fun heq => hne (Operand.reg.inj heq)⟩
    · exact ⟨.ofVReg v, hv, if_pos rfl⟩

theorem Instr.references_readInstead (i : Instr M) (w : VReg M) :
    (i.readInstead v w).references = i.references := by
  unfold Instr.references Instr.readInstead
  rw [List.filterMap_map]
  refine List.filterMap_congr fun u _ => ?_
  by_cases huv : u = .ofVReg v
  · simp [huv, Operand.ofVReg, Operand.block?]
  · simp [huv]

theorem not_mem_reads_reloadFrom {w : VReg M} {r : Register M} : r ∉ (reloadFrom slot w).reads := by
  simp [reloadFrom, Instr.reads, Operand.reg?]

theorem mem_defs_reloadFrom {w : VReg M} {r : Register M} :
    r ∈ (reloadFrom slot w).defs ↔ r = .virtual w := by
  simp [reloadFrom]

theorem mem_reads_saveTo {r : Register M} : r ∈ (saveTo slot v).reads ↔ r = .virtual v := by
  simp [saveTo, Instr.reads, Operand.reg?, Operand.ofVReg, eq_comm]

theorem not_mem_defs_saveTo {r : Register M} : r ∉ (saveTo slot v).defs := by
  simp [saveTo]

/-- The save after an instruction reads nothing that the instruction has not written. -/
theorem needs_saveAfter {i : Instr M} {r : Register M} (hr : r ∉ i.defs) {code : List (Instr M)} :
    Needs r (saveAfter slot v i ++ code) ↔ Needs r code := by
  unfold saveAfter
  by_cases hwrites : i.writesV v = true
  · have hrv : r ≠ .virtual v := fun heq => hr (heq ▸ Instr.writesV_iff.mp hwrites)
    rw [if_pos hwrites, List.singleton_append, needs_cons, mem_reads_saveTo]
    simp [hrv, not_mem_defs_saveTo]
  · rw [if_neg hwrites, List.nil_append]

theorem mem_saveAfter {i j : Instr M} :
    j ∈ saveAfter slot v i ↔ j = saveTo slot v ∧ .virtual v ∈ i.defs := by
  unfold saveAfter
  by_cases hwrites : i.writesV v = true
  · simp [hwrites, Instr.writesV_iff.mp hwrites]
  · have hnot : .virtual v ∉ i.defs := fun h => hwrites (Instr.writesV_iff.mpr h)
    simp [hwrites, hnot]

/-- A register that the spill leaves alone. -/
def Untouched (v : VReg M) (Fresh : VReg M → Prop) (r : Register M) : Prop :=
  r ≠ .virtual v ∧ ∀ w, Fresh w → r ≠ .virtual w

/-- The code mentions no fresh register. -/
def Stale (Fresh : VReg M → Prop) (code : List (Instr M)) : Prop :=
  ∀ i ∈ code, ∀ w, Fresh w → .virtual w ∉ i.defs ∧ .virtual w ∉ i.reads

theorem Stale.cons {i : Instr M} {code : List (Instr M)} (h : Stale Fresh (i :: code)) :
    (∀ w, Fresh w → .virtual w ∉ i.defs ∧ .virtual w ∉ i.reads) ∧ Stale Fresh code :=
  ⟨h i List.mem_cons_self, fun j hj => h j (List.mem_cons_of_mem _ hj)⟩

theorem Untouched.mem_reads_readInstead {r : Register M} (hr : Untouched v Fresh r)
    {i : Instr M} {w : VReg M} (hw : Fresh w) : r ∈ (i.readInstead v w).reads ↔ r ∈ i.reads := by
  rw [Instr.mem_reads_readInstead]
  simp [hr.1, hr.2 w hw]

section New

variable {i : Instr M} (hstale : ∀ w, Fresh w → .virtual w ∉ i.defs ∧ .virtual w ∉ i.reads)
  {r : Register M} (hr : r = .virtual v ∨ ∃ w, Fresh w ∧ r = .virtual w)

include hstale hr

/-- Old code that does not read the spilled register reads no reloaded one either. -/
theorem not_mem_reads_of_new (hread : .virtual v ∉ i.reads) : r ∉ i.reads := by
  rcases hr with rfl | ⟨w, hw, rfl⟩
  · exact hread
  · exact (hstale w hw).2

/-- With another register in place of the spilled one, that is the only new one read. -/
theorem eq_of_mem_reads_readInstead {w : VReg M} (hread : r ∈ (i.readInstead v w).reads) :
    r = .virtual w := by
  rcases Instr.mem_reads_readInstead.mp hread with ⟨hread, hne⟩ | ⟨heq, _⟩
  · rcases hr with rfl | ⟨u, hu, rfl⟩
    · exact absurd rfl hne
    · exact absurd hread (hstale u hu).2
  · exact heq

end New

namespace SpilledFrom

variable {code : List (Instr M)} {j : Instr M}

theorem mono {code' : List (Instr M)} (hsub : ∀ i ∈ code, i ∈ code')
    (h : SpilledFrom slot v Fresh code j) : SpilledFrom slot v Fresh code' j := by
  cases h with
  | kept hi => exact .kept (hsub _ hi)
  | changed hi hw => exact .changed (hsub _ hi) hw
  | reload hw => exact .reload hw
  | save hi hdef => exact .save (hsub _ hi) hdef

theorem of_mem_saveAfter {i : Instr M} (hi : i ∈ code) (hj : j ∈ saveAfter slot v i) :
    SpilledFrom slot v Fresh code j := by
  rcases mem_saveAfter.mp hj with ⟨rfl, hdef⟩
  exact .save hi hdef

end SpilledFrom

/-- The last element stands behind, or there is nothing behind. -/
theorem getLast?_append_cases {α : Type} (front : List α) {back : List α} {a : α}
    (ha : (front ++ back).getLast? = some a) :
    back.getLast? = some a ∨ (back = [] ∧ a ∈ front) := by
  rw [List.getLast?_append] at ha
  cases hback : back.getLast? with
  | none =>
      rw [hback, Option.none_or] at ha
      exact Or.inr ⟨List.getLast?_eq_none_iff.mp hback, List.mem_of_getLast? ha⟩
  | some b =>
      rw [hback, Option.some_or] at ha
      exact Or.inl ha

namespace SpillsTo

variable {code code' : List (Instr M)}

/-- Where an instruction of the spilled code comes from. -/
theorem spilledFrom (h : SpillsTo slot v Fresh code code') {j : Instr M} (hj : j ∈ code') :
    SpilledFrom slot v Fresh code j := by
  induction h with
  | nil => exact absurd hj (by simp)
  | keep _ _ ih =>
      rcases List.mem_cons.mp hj with rfl | hj
      · exact .kept List.mem_cons_self
      · rcases List.mem_append.mp hj with hsave | hj
        · exact .of_mem_saveAfter List.mem_cons_self hsave
        · exact (ih hj).mono fun i hi => List.mem_cons_of_mem _ hi
  | reload _ hw _ ih =>
      rcases List.mem_cons.mp hj with rfl | hj
      · exact .reload hw
      · rcases List.mem_cons.mp hj with rfl | hj
        · exact .changed List.mem_cons_self hw
        · rcases List.mem_append.mp hj with hsave | hj
          · exact .of_mem_saveAfter List.mem_cons_self hsave
          · exact (ih hj).mono fun i hi => List.mem_cons_of_mem _ hi

theorem eq_nil_iff (h : SpillsTo slot v Fresh code code') : code' = [] ↔ code = [] := by
  cases h <;> simp

/-- Code that does not end with a terminator does not end with one after the spill. -/
theorem not_terminator_last (h : SpillsTo slot v Fresh code code')
    (hlast : ∀ i, code.getLast? = some i → i.isTerminator = false) {j : Instr M}
    (hj : code'.getLast? = some j) : j.isTerminator = false := by
  have hbehind : ∀ (i : Instr M) (code : List (Instr M)),
      (∀ k, (i :: code).getLast? = some k → k.isTerminator = false) →
      ∀ k, code.getLast? = some k → k.isTerminator = false := by
    intro i code hlast k hk
    exact hlast k (by rw [List.getLast?_cons, hk]; rfl)
  induction h with
  | nil => exact absurd hj (by simp)
  | @keep i _ code code' rest ih =>
      rcases getLast?_append_cases (i :: saveAfter slot v i) hj with hj | ⟨hnil, hj⟩
      · exact ih (hbehind i code hlast) hj
      · rw [rest.eq_nil_iff.mp hnil] at hlast
        rcases List.mem_cons.mp hj with rfl | hj
        · exact hlast j rfl
        · rw [(mem_saveAfter.mp hj).1]
          rfl
  | @reload i _ w _ code code' rest ih =>
      rcases getLast?_append_cases
        (reloadFrom slot w :: i.readInstead v w :: saveAfter slot v i) hj with hj | ⟨hnil, hj⟩
      · exact ih (hbehind i code hlast) hj
      · rw [rest.eq_nil_iff.mp hnil] at hlast
        simp only [List.mem_cons] at hj
        rcases hj with rfl | rfl | hj
        · rfl
        · exact hlast i rfl
        · rw [(mem_saveAfter.mp hj).1]
          rfl

/-- A register that is not fresh is written where it was. -/
theorem writes_iff (h : SpillsTo slot v Fresh code code') {r : Register M}
    (hr : ∀ w, Fresh w → r ≠ .virtual w) :
    (∃ i ∈ code', r ∈ i.defs) ↔ ∃ i ∈ code, r ∈ i.defs := by
  have hsave : ∀ i : Instr M, ¬ ∃ j ∈ saveAfter slot v i, r ∈ j.defs := by
    rintro i ⟨j, hj, hdef⟩
    rw [(mem_saveAfter.mp hj).1] at hdef
    exact not_mem_defs_saveTo hdef
  induction h with
  | nil => simp
  | @keep i _ _ _ _ ih =>
      simp only [List.mem_cons, List.mem_append, or_and_right, exists_or, hsave i, ih, false_or]
  | @reload i _ w hw _ _ _ ih =>
      simp only [List.mem_cons, List.mem_append, or_and_right, exists_or, exists_eq_left, hsave i,
        ih, false_or, mem_defs_reloadFrom, hr w hw]
      rfl

/-- A register that the spill leaves alone is needed as before. -/
theorem needs_iff (h : SpillsTo slot v Fresh code code') {r : Register M}
    (hr : Untouched v Fresh r) : Needs r code' ↔ Needs r code := by
  induction h with
  | nil => exact Iff.rfl
  | keep _ _ ih =>
      rw [needs_cons, needs_cons]
      exact or_congr_right (and_congr_right fun hdef => (needs_saveAfter hdef).trans ih)
  | @reload i _ w hw _ _ _ ih =>
      have hskip : r ∉ (reloadFrom slot w).defs := fun hdef =>
        hr.2 w hw (mem_defs_reloadFrom.mp hdef)
      rw [needs_cons, needs_cons, needs_cons, hr.mem_reads_readInstead hw]
      simp only [not_mem_reads_reloadFrom, hskip, not_false_eq_true, true_and, false_or]
      exact or_congr_right (and_congr_right fun hdef => (needs_saveAfter hdef).trans ih)

/-- The spilled register and the reloaded ones are not needed from before. -/
theorem not_needs (h : SpillsTo slot v Fresh code code') (hstale : Stale Fresh code)
    {r : Register M} (hr : r = .virtual v ∨ ∃ w, Fresh w ∧ r = .virtual w) : ¬ Needs r code' := by
  induction h with
  | nil => exact not_needs_nil
  | @keep i hread _ _ _ ih =>
      rw [needs_cons]
      rintro (hreads | ⟨hdef, hneeds⟩)
      · exact not_mem_reads_of_new hstale.cons.1 hr hread hreads
      · exact ih hstale.cons.2 ((needs_saveAfter hdef).mp hneeds)
  | @reload i hread w hw _ _ _ ih =>
      rw [needs_cons, needs_cons]
      rintro (hreads | ⟨hreload, hreads | ⟨hdef, hneeds⟩⟩)
      · exact not_mem_reads_reloadFrom hreads
      · -- What is read in its place was reloaded just before.
        have heq := eq_of_mem_reads_readInstead hstale.cons.1 hr hreads
        exact hreload (mem_defs_reloadFrom.mpr heq)
      · exact ih hstale.cons.2 ((needs_saveAfter hdef).mp hneeds)

end SpillsTo

namespace Hoisted

variable {run reloads run' : List (Instr M)}

/-- The reloads fetch fresh registers. -/
theorem mem_reloads (h : Hoisted slot v Fresh run reloads run') {j : Instr M} (hj : j ∈ reloads) :
    ∃ w, Fresh w ∧ j = reloadFrom slot w := by
  induction h with
  | nil => exact absurd hj (by simp)
  | keep _ _ ih => exact ih hj
  | reload _ hw _ ih =>
      rcases List.mem_cons.mp hj with rfl | hj
      · exact ⟨_, hw, rfl⟩
      · exact ih hj

/-- A terminator is the one before or reads a register that has been reloaded. -/
theorem mem_cases (h : Hoisted slot v Fresh run reloads run') {j : Instr M} (hj : j ∈ run') :
    (j ∈ run ∧ .virtual v ∉ j.reads) ∨
      ∃ i ∈ run, ∃ w, Fresh w ∧ reloadFrom slot w ∈ reloads ∧ j = i.readInstead v w := by
  induction h with
  | nil => exact absurd hj (by simp)
  | keep hread _ ih =>
      rcases List.mem_cons.mp hj with rfl | hj
      · exact Or.inl ⟨by simp, hread⟩
      · rcases ih hj with ⟨hj, hr⟩ | ⟨i, hi, hrest⟩
        · exact Or.inl ⟨List.mem_cons_of_mem _ hj, hr⟩
        · exact Or.inr ⟨i, List.mem_cons_of_mem _ hi, hrest⟩
  | reload _ hw _ ih =>
      rcases List.mem_cons.mp hj with rfl | hj
      · exact Or.inr ⟨_, List.mem_cons_self, _, hw, List.mem_cons_self, rfl⟩
      · rcases ih hj with ⟨hj, hr⟩ | ⟨i, hi, w, hw, hmem, heq⟩
        · exact Or.inl ⟨List.mem_cons_of_mem _ hj, hr⟩
        · exact Or.inr ⟨i, List.mem_cons_of_mem _ hi, w, hw, List.mem_cons_of_mem _ hmem, heq⟩

/-- The terminators refer to the blocks they referred to. -/
theorem references (h : Hoisted slot v Fresh run reloads run') :
    run'.flatMap Instr.references = run.flatMap Instr.references := by
  induction h with
  | nil => rfl
  | keep _ _ ih => rw [List.flatMap_cons, List.flatMap_cons, ih]
  | reload _ _ _ ih =>
      rw [List.flatMap_cons, List.flatMap_cons, ih, Instr.references_readInstead]

theorem length_eq (h : Hoisted slot v Fresh run reloads run') : run'.length = run.length := by
  induction h with
  | nil => rfl
  | keep _ _ ih => rw [List.length_cons, List.length_cons, ih]
  | reload _ _ _ ih => rw [List.length_cons, List.length_cons, ih]

theorem needs_run (h : Hoisted slot v Fresh run reloads run') {r : Register M}
    (hr : Untouched v Fresh r) : Needs r run' ↔ Needs r run := by
  induction h with
  | nil => exact Iff.rfl
  | keep _ _ ih => rw [needs_cons, needs_cons, ih]
  | reload _ hw _ ih =>
      rw [needs_cons, needs_cons, ih, hr.mem_reads_readInstead hw]
      rfl

/-- A register that the spill leaves alone is needed as before. -/
theorem needs_iff (h : Hoisted slot v Fresh run reloads run') {r : Register M}
    (hr : Untouched v Fresh r) : Needs r (reloads ++ run') ↔ Needs r run := by
  rw [needs_append, ← h.needs_run hr]
  constructor
  · rintro (hneeds | ⟨_, hneeds⟩)
    · rcases hneeds.exists_read with ⟨j, hj, hread⟩
      rcases h.mem_reloads hj with ⟨w, _, rfl⟩
      exact absurd hread not_mem_reads_reloadFrom
    · exact hneeds
  · intro hneeds
    refine Or.inr ⟨fun j hj hdef => ?_, hneeds⟩
    rcases h.mem_reloads hj with ⟨w, hw, rfl⟩
    exact hr.2 w hw (mem_defs_reloadFrom.mp hdef)

/-- The spilled register and the reloaded ones are not needed from before. -/
theorem not_needs (h : Hoisted slot v Fresh run reloads run') (hstale : Stale Fresh run)
    {r : Register M} (hr : r = .virtual v ∨ ∃ w, Fresh w ∧ r = .virtual w) :
    ¬ Needs r (reloads ++ run') := by
  rw [needs_append]
  rintro (hneeds | ⟨hreloads, hneeds⟩)
  · rcases hneeds.exists_read with ⟨j, hj, hread⟩
    rcases h.mem_reloads hj with ⟨w, _, rfl⟩
    exact not_mem_reads_reloadFrom hread
  · rcases hneeds.exists_read with ⟨j, hj, hread⟩
    rcases h.mem_cases hj with ⟨hj, hnot⟩ | ⟨i, hi, w, _, hmem, rfl⟩
    · exact not_mem_reads_of_new (hstale j hj) hr hnot hread
    · -- The register has been reloaded before the terminators.
      have heq := eq_of_mem_reads_readInstead (hstale i hi) hr hread
      exact hreloads _ hmem (mem_defs_reloadFrom.mpr heq)

end Hoisted

section Whole

variable {code code' run reloads run' : List (Instr M)} (hcode : SpillsTo slot v Fresh code code')
  (hrun : Hoisted slot v Fresh run reloads run') {r : Register M}
include hcode hrun

/-- A register that the spill leaves alone is needed as before. -/
theorem SpillsTo.needs_append_iff (hr : Untouched v Fresh r) :
    Needs r (code' ++ (reloads ++ run')) ↔ Needs r (code ++ run) := by
  have hwrites := hcode.writes_iff hr.2
  rw [needs_append, @needs_append _ r code, hcode.needs_iff hr, hrun.needs_iff hr]
  refine or_congr_right (and_congr_left fun _ => ?_)
  constructor
  · intro hnone i hi hdef
    rcases hwrites.mpr ⟨i, hi, hdef⟩ with ⟨j, hj, hdef'⟩
    exact hnone j hj hdef'
  · intro hnone i hi hdef
    rcases hwrites.mp ⟨i, hi, hdef⟩ with ⟨j, hj, hdef'⟩
    exact hnone j hj hdef'

/-- The spilled register and the reloaded ones are not needed from before. -/
theorem SpillsTo.not_needs_append (hstale : Stale Fresh code) (hstaleRun : Stale Fresh run)
    (hr : r = .virtual v ∨ ∃ w, Fresh w ∧ r = .virtual w) :
    ¬ Needs r (code' ++ (reloads ++ run')) := by
  rw [needs_append]
  rintro (hneeds | ⟨_, hneeds⟩)
  · exact hcode.not_needs hstale hr hneeds
  · exact hrun.not_needs hstaleRun hr hneeds

end Whole

namespace Block.SpillsTo

variable {b c : Block M}

/-- The reloads join the body of a block, and its terminators stay its run. -/
theorem cut (h : b.SpillsTo slot v Fresh c) :
    ∃ body reloads, RegisterColoring.SpillsTo slot v Fresh b.body body ∧
      Hoisted slot v Fresh b.run reloads c.run ∧ c.body = body ++ reloads := by
  rcases h.code with ⟨body, reloads, run, hbody, hrun, hcode⟩
  have hlast : ∀ j, (body ++ reloads).getLast? = some j → j.isTerminator = false := by
    intro j hj
    rcases getLast?_append_cases body hj with hj | ⟨hnil, _⟩
    · rcases hrun.mem_reloads (List.mem_of_getLast? hj) with ⟨w, _, rfl⟩
      rfl
    · rw [hnil, List.append_nil] at hj
      exact hbody.not_terminator_last (fun i hi => Block.not_terminator_last hi) hj
  have hjumps : ∀ j ∈ run, j.isTerminator = true := by
    intro j hj
    rcases hrun.mem_cases hj with ⟨hj, _⟩ | ⟨i, hi, w, _, _, rfl⟩
    · exact isTerminator_of_mem_run hj
    · exact isTerminator_of_mem_run (i := i) hi
  have hsplit := Block.body_run_of_last hcode hlast hjumps
  refine ⟨body, reloads, hbody, ?_, hsplit.1⟩
  rw [hsplit.2]
  exact hrun

/-- Where an instruction before the terminators comes from. -/
theorem spilledFrom_body (h : b.SpillsTo slot v Fresh c) {j : Instr M} (hj : j ∈ c.body) :
    SpilledFrom slot v Fresh b.body j := by
  rcases h.cut with ⟨body, reloads, hbody, hrun, hcut⟩
  rw [hcut] at hj
  rcases List.mem_append.mp hj with hj | hj
  · exact hbody.spilledFrom hj
  · rcases hrun.mem_reloads hj with ⟨w, hw, rfl⟩
    exact .reload hw

theorem terminated (h : b.SpillsTo slot v Fresh c) (hterm : b.Terminated) : c.Terminated := by
  refine .of_append c.body_append_run.symm (fun j hj => ?_) (fun j hj => isTerminator_of_mem_run hj)
    fun hnil => ?_
  · cases h.spilledFrom_body hj with
    | kept hi => exact hterm.not_terminator hi
    | @changed i hi w _ => exact hterm.not_terminator (i := i) hi
    | reload _ => rfl
    | save _ _ => rfl
  · rcases h.cut with ⟨_, _, _, hrun, _⟩
    have hlen := hrun.length_eq
    rw [hnil] at hlen
    exact hterm.run_ne_nil (List.eq_nil_of_length_eq_zero hlen.symm)

theorem successors_eq (h : b.SpillsTo slot v Fresh c) : c.successors = b.successors := by
  rcases h.cut with ⟨_, _, _, hrun, _⟩
  rw [Block.successors, hrun.references]
  rfl

/-- Where an instruction of the block after the spill comes from. -/
theorem spilledFrom (h : b.SpillsTo slot v Fresh c) {j : Instr M} (hj : j ∈ c.code) :
    SpilledFrom slot v Fresh b.code j := by
  rcases h.code with ⟨body, reloads, run, hbody, hrun, hcode⟩
  rw [hcode, List.append_assoc, List.mem_append, List.mem_append] at hj
  rcases hj with hj | hj | hj
  · exact (hbody.spilledFrom hj).mono fun i hi => Block.mem_code_iff.mpr (Or.inl hi)
  · rcases hrun.mem_reloads hj with ⟨w, hw, rfl⟩
    exact .reload hw
  · rcases hrun.mem_cases hj with ⟨hj, _⟩ | ⟨i, hi, w, hw, _, rfl⟩
    · exact .kept (Block.mem_code_iff.mpr (Or.inr hj))
    · exact .changed (Block.mem_code_iff.mpr (Or.inr hi)) hw

/-- A register that is not fresh is written where it was. -/
theorem defines_iff (h : b.SpillsTo slot v Fresh c) (hquiet : ∀ i ∈ b.run, i.defs = [])
    {r : Register M} (hr : ∀ w, Fresh w → r ≠ .virtual w) : c.Defines r ↔ b.Defines r := by
  rcases h.code with ⟨body, reloads, run, hbody, hrun, hcode⟩
  -- Behind the straight-line code come reloads of fresh registers and terminators.
  have hwrites : (∃ j ∈ c.code, r ∈ j.defs) ↔ ∃ j ∈ body, r ∈ j.defs := by
    constructor
    · rintro ⟨j, hj, hdef⟩
      rw [hcode, List.append_assoc, List.mem_append, List.mem_append] at hj
      rcases hj with hj | hj | hj
      · exact ⟨j, hj, hdef⟩
      · rcases hrun.mem_reloads hj with ⟨w, hw, rfl⟩
        exact absurd (mem_defs_reloadFrom.mp hdef) (hr w hw)
      · rcases hrun.mem_cases hj with ⟨hj, _⟩ | ⟨i, hi, w, _, _, rfl⟩
        · rw [hquiet j hj] at hdef
          exact absurd hdef (by simp)
        · rw [Instr.readInstead, hquiet i hi] at hdef
          exact absurd hdef (by simp)
    · rintro ⟨j, hj, hdef⟩
      exact ⟨j, by rw [hcode]; simp [hj], hdef⟩
  have hold : (∃ j ∈ b.code, r ∈ j.defs) ↔ ∃ j ∈ b.body, r ∈ j.defs := by
    constructor
    · rintro ⟨j, hj, hdef⟩
      rcases Block.mem_code_iff.mp hj with hj | hj
      · exact ⟨j, hj, hdef⟩
      · rw [hquiet j hj] at hdef
        exact absurd hdef (by simp)
    · rintro ⟨j, hj, hdef⟩
      exact ⟨j, Block.mem_code_iff.mpr (Or.inl hj), hdef⟩
  unfold Block.Defines
  rw [h.inputs, hwrites, hbody.writes_iff hr, hold]

/-- A register that the spill leaves alone is exposed as before. -/
theorem exposes_iff (h : b.SpillsTo slot v Fresh c) {r : Register M}
    (hr : Untouched v Fresh r) : c.Exposes r ↔ b.Exposes r := by
  rcases h.code with ⟨body, reloads, run, hbody, hrun, hcode⟩
  unfold Block.Exposes
  rw [h.inputs, hcode, ← Block.body_append_run b, List.append_assoc, hbody.needs_append_iff hrun hr]

/-- The spilled register and the reloaded ones are exposed nowhere. -/
theorem not_exposes (h : b.SpillsTo slot v Fresh c) (hstale : Stale Fresh b.code)
    {r : Register M} (hr : r = .virtual v ∨ ∃ w, Fresh w ∧ r = .virtual w) : ¬ c.Exposes r := by
  rcases h.code with ⟨body, reloads, run, hbody, hrun, hcode⟩
  rintro ⟨_, hneeds⟩
  rw [hcode, List.append_assoc] at hneeds
  exact hbody.not_needs_append hrun (fun i hi => hstale i (Block.mem_code_iff.mpr (Or.inl hi)))
    (fun i hi => hstale i (Block.mem_code_iff.mpr (Or.inr hi))) hr hneeds

end Block.SpillsTo

/-- The first `n` ids that a supply hands out. -/
def Supply.ids (supply : Supply) (n : Nat) : List Nat :=
  (List.range n).map supply.regId

theorem Supply.regId_afterRegs (supply : Supply) (m k : Nat) :
    (supply.afterRegs m).regId k = supply.regId (m + k) := by
  unfold Supply.regId Supply.afterRegs Supply.regId
  rw [Nat.mod_add_mod, Nat.add_assoc]

/-- A supply that has handed out `m` ids counts on from there, as long as it does not wrap
    around. -/
theorem Supply.regId_eq_add {supply : Supply} {m j : Nat}
    (h : supply.registers % Supply.capacity = m % Supply.capacity) (hj : m + j < Supply.capacity) :
    supply.regId j = m + j := by
  rw [Supply.regId, ← Nat.mod_add_mod, h, Nat.mod_add_mod, Nat.mod_eq_of_lt hj]

theorem Supply.ids_add (supply : Supply) (m n : Nat) :
    supply.ids (m + n) = supply.ids m ++ (supply.afterRegs m).ids n := by
  unfold Supply.ids
  rw [List.range_add, List.map_append, List.map_map]
  refine congrArg _ (List.map_congr_left fun k _ => ?_)
  rw [Supply.regId_afterRegs]
  rfl

theorem Supply.ids_succ (supply : Supply) (n : Nat) :
    supply.ids (n + 1) = supply.regId 0 :: (supply.afterRegs 1).ids n := by
  rw [Nat.add_comm, Supply.ids_add]
  rfl

theorem spillBody_ids (supply : Supply) (code : List (Instr M)) :
    (spillBody slot v supply code).2 = supply.ids (spillBody slot v supply code).2.length := by
  induction code generalizing supply with
  | nil => rfl
  | cons i rest ih =>
      by_cases hread : i.readsV v = true
      · simp only [spillBody, hread, if_true, List.length_cons]
        rw [Supply.ids_succ, ← ih]
        rfl
      · simp only [spillBody, hread]
        exact ih supply

theorem spillRun_ids (supply : Supply) (run : List (Instr M)) :
    (spillRun slot v supply run).2.2 = supply.ids (spillRun slot v supply run).2.2.length := by
  induction run generalizing supply with
  | nil => rfl
  | cons i rest ih =>
      by_cases hread : i.readsV v = true
      · simp only [spillRun, hread, if_true, List.length_cons]
        rw [Supply.ids_succ, ← ih]
        rfl
      · simp only [spillRun, hread]
        exact ih supply

theorem spillBlocks_ids (slot : Slot) (v : VReg M) (supply : Supply)
    (blocks : List (Block M)) :
    (spillBlocks slot v supply blocks).2 =
      supply.ids (spillBlocks slot v supply blocks).2.length := by
  induction blocks generalizing supply with
  | nil => rfl
  | cons b rest ih =>
      have hblock : (spillBlock slot v supply b).2 =
          supply.ids (spillBlock slot v supply b).2.length := by
        simp only [spillBlock, List.length_append]
        rw [Supply.ids_add, ← spillBody_ids, ← spillRun_ids]
      simp only [spillBlocks, List.length_append]
      rw [Supply.ids_add, ← hblock, ← ih]

section Counting

variable {P : Instr M → Bool} (hsame : ∀ (i : Instr M) (w : VReg M), P (i.readInstead v w) = P i)
  (hsave : P (saveTo slot v) = false)

include hsave in
theorem countP_saveAfter (i : Instr M) : (saveAfter slot v i).countP P = 0 := by
  unfold saveAfter
  split
  · simp [hsave]
  · rfl

include hsame hsave

/-- Of the instructions that a property is kept by, a spill only adds the reloads. -/
theorem countP_spillBody (supply : Supply) (code : List (Instr M)) :
    (spillBody slot v supply code).1.countP P = code.countP P +
      (spillBody slot v supply code).2.countP fun id => P (reloadFrom slot ⟨id, v.cls⟩) := by
  induction code generalizing supply with
  | nil => rfl
  | cons i code ih =>
      have hsaved := countP_saveAfter hsave i
      unfold saveAfter at hsaved
      simp only [spillBody]
      split
      · simp only [List.countP_cons, List.countP_append, hsame, hsaved, ih, Supply.vreg]
        omega
      · simp only [List.countP_cons, List.countP_append, hsaved, ih]
        omega

omit hsave in
theorem countP_spillRun (slot : Slot) (supply : Supply) (run : List (Instr M)) :
    (spillRun slot v supply run).1.countP P + (spillRun slot v supply run).2.1.countP P =
      run.countP P +
        (spillRun slot v supply run).2.2.countP fun id => P (reloadFrom slot ⟨id, v.cls⟩) := by
  induction run generalizing supply with
  | nil => rfl
  | cons i run ih =>
      simp only [spillRun]
      split
      · have hrest := ih (supply.afterRegs 1)
        generalize spillRun slot v (supply.afterRegs 1) run = spilled at hrest ⊢
        obtain ⟨reloads, others, ids⟩ := spilled
        simp only [List.countP_cons, hsame, Supply.vreg] at hrest ⊢
        omega
      · have hrest := ih supply
        generalize spillRun slot v supply run = spilled at hrest ⊢
        obtain ⟨reloads, others, ids⟩ := spilled
        simp only [List.countP_cons] at hrest ⊢
        omega

theorem countP_spillBlock (supply : Supply) (b : Block M) :
    (spillBlock slot v supply b).1.code.countP P = b.code.countP P +
      (spillBlock slot v supply b).2.countP fun id => P (reloadFrom slot ⟨id, v.cls⟩) := by
  have hbody := countP_spillBody hsame hsave supply b.body
  have hrun := countP_spillRun hsame slot
    (supply.afterRegs (spillBody slot v supply b.body).2.length) b.run
  have hcode : b.code.countP P = b.body.countP P + b.run.countP P := by
    rw [← List.countP_append, Block.body_append_run]
  simp only [spillBlock, List.countP_append]
  generalize spillRun slot v (supply.afterRegs (spillBody slot v supply b.body).2.length) b.run =
    spilled at hrun ⊢
  obtain ⟨reloads, others, ids⟩ := spilled
  simp only at hrun ⊢
  omega

theorem countP_spillBlocks (supply : Supply) (blocks : List (Block M)) :
    ((spillBlocks slot v supply blocks).1.flatMap Block.code).countP P =
      (blocks.flatMap Block.code).countP P +
        (spillBlocks slot v supply blocks).2.countP fun id => P (reloadFrom slot ⟨id, v.cls⟩) := by
  induction blocks generalizing supply with
  | nil => rfl
  | cons b blocks ih =>
      have hblock := countP_spillBlock hsame hsave supply b
      have hrest := ih (supply.afterRegs (spillBlock slot v supply b).2.length)
      simp only [spillBlocks, List.flatMap_cons, List.countP_append]
      omega

end Counting

namespace Function

variable {f : Function M} {supply : Supply} {s : Spill M}

/-- What a successful spill returns. -/
theorem spill_eq_ok (h : f.spill v supply = .ok s) :
    s.slot = supply.slot (Machine.spillSize v.cls) ∧
      s.supply = supply.afterSlot.afterRegs s.reloads.length ∧
      s.func = { f with blocks := (spillBlocks s.slot v supply.afterSlot f.blocks).1 } ∧
      s.reloads = (spillBlocks s.slot v supply.afterSlot f.blocks).2 := by
  unfold spill at h
  cases hbeside : f.inputsBeside? v with
  | some cause => rw [hbeside] at h; exact absurd h (by simp)
  | none =>
      rw [hbeside] at h
      simp only [Except.ok.injEq] at h
      subst h
      exact ⟨rfl, rfl, rfl, rfl⟩

/-- Without inputs, any register can be spilled. -/
theorem exists_spill (hin : ∀ b ∈ f.blocks, b.inputs = []) (v : VReg M) (supply : Supply) :
    ∃ s, f.spill v supply = .ok s := by
  have hnone : f.inputsBeside? v = none := by
    refine List.findSome?_eq_none_iff.mpr fun entry hentry => ?_
    simp [hin entry.1 (List.fst_mem_of_mem_zipIdx hentry)]
  exact ⟨_, by rw [spill, hnone]⟩

/-- The reloaded registers are the next ones of the supply. -/
theorem reloads_eq (h : f.spill v supply = .ok s) : s.reloads = supply.ids s.reloads.length := by
  have hids := spillBlocks_ids s.slot v supply.afterSlot f.blocks
  rw [← (spill_eq_ok h).2.2.2] at hids
  exact hids

theorem registers_spill (h : f.spill v supply = .ok s) {m : Nat}
    (hm : supply.registers % Supply.capacity = m % Supply.capacity) :
    s.supply.registers % Supply.capacity = (m + s.reloads.length) % Supply.capacity := by
  simp only [(spill_eq_ok h).2.1, Supply.afterRegs, Supply.regId, Supply.afterSlot]
  rw [Nat.mod_mod, ← Nat.mod_add_mod, hm, Nat.mod_add_mod]

theorem slots_spill (h : f.spill v supply = .ok s) {k : Nat}
    (hk : supply.slots % Supply.capacity = k % Supply.capacity) :
    s.supply.slots % Supply.capacity = (k + 1) % Supply.capacity := by
  simp only [(spill_eq_ok h).2.1, Supply.afterRegs, Supply.afterSlot]
  rw [Nat.mod_mod, ← Nat.mod_add_mod, hk, Nat.mod_add_mod]

/-- The instructions that a spill adds are reloads and saves. -/
theorem countP_spill (h : f.spill v supply = .ok s) {P : Instr M → Bool}
    (hsame : ∀ (i : Instr M) (w : VReg M), P (i.readInstead v w) = P i)
    (hsave : P (saveTo s.slot v) = false) :
    s.func.instructions.countP P = f.instructions.countP P +
      s.reloads.countP fun id => P (reloadFrom s.slot ⟨id, v.cls⟩) := by
  rcases spill_eq_ok h with ⟨_, _, hfunc, hreloads⟩
  rw [hfunc, hreloads]
  exact countP_spillBlocks hsame hsave supply.afterSlot f.blocks

/-- A function before and after `v` is spilled, with fresh registers that it did not
    mention. -/
structure SpillsTo (slot : Slot) (v : VReg M) (Fresh : VReg M → Prop) (f g : Function M) :
    Prop where
  blocks : List.Forall₂ (Block.SpillsTo slot v Fresh) f.blocks g.blocks
  stale : ∀ w, Fresh w → .virtual w ∉ f.registers

/-- Every block of the spilled function, whether or not the reloaded ids were in use. -/
theorem blocks_of_spill (h : f.spill v supply = .ok s) :
    List.Forall₂ (Block.SpillsTo s.slot v fun w => w.id ∈ s.reloads ∧ w.cls = v.cls)
      f.blocks s.func.blocks := by
  have hspill := spill_eq_ok h
  rw [hspill.2.2.1]
  refine spillBlocks_spillsTo fun id hid => ?_
  rw [← hspill.2.2.2] at hid
  exact ⟨hid, rfl⟩

/-- The spilled function, if the supply has fresh ids. -/
theorem spillsTo_of_spill (h : f.spill v supply = .ok s)
    (hfresh : supply.FreshFor f s.reloads.length) :
    f.SpillsTo s.slot v (fun w => w.id ∈ s.reloads ∧ w.cls = v.cls) s.func where
  blocks := blocks_of_spill h
  stale w hw hmem := by
    rw [reloads_eq h] at hw
    rcases List.mem_map.mp hw.1 with ⟨k, hk, heq⟩
    exact Nat.lt_irrefl _ (heq ▸ hfresh k (List.mem_range.mp hk) w hmem)

section Blocks

variable {g : Function M} (hblocks : List.Forall₂ (Block.SpillsTo slot v Fresh) f.blocks g.blocks)
  (hin : ∀ b ∈ f.blocks, b.inputs = [])
include hblocks hin

theorem inputs_of_blocks : ∀ c ∈ g.blocks, c.inputs = [] := by
  intro c hc
  rcases exists_left_of_forall₂ hblocks hc with ⟨b, hb, hbc⟩
  rw [hbc.inputs]
  exact hin b hb

/-- A spill adds no other registers than the reloaded ones, even if these were in use
    before. -/
theorem mem_registers_of_blocks {r : Register M} (hr : r ∈ g.registers) :
    r ∈ f.registers ∨ ∃ w, Fresh w ∧ r = .virtual w := by
  rcases mem_registers.mp hr with ⟨c, hc, hmem⟩
  rcases exists_left_of_forall₂ hblocks hc with ⟨b, hb, hspills⟩
  have hold : ∀ i ∈ b.code, ∀ r, r ∈ i.defs ∨ r ∈ i.reads → r ∈ f.registers := fun i hi r hr =>
    mem_registers_of_instr hb hi hr
  rcases hmem with ⟨w, hw, _⟩ | ⟨j, hj, hmem⟩
  · exact absurd hw (by simp [inputs_of_blocks hblocks hin c hc])
  · cases hspills.spilledFrom hj with
    | kept hi => exact Or.inl (hold j hi _ hmem)
    | @changed i hi w hw =>
        rcases hmem with hdef | hread
        · exact Or.inl (hold i hi _ (Or.inl hdef))
        · rcases Instr.mem_reads_readInstead.mp hread with ⟨hread, _⟩ | ⟨heq, _⟩
          · exact Or.inl (hold i hi _ (Or.inr hread))
          · exact Or.inr ⟨w, hw, heq⟩
    | @reload w hw =>
        rcases hmem with hdef | hread
        · exact Or.inr ⟨w, hw, mem_defs_reloadFrom.mp hdef⟩
        · exact absurd hread not_mem_reads_reloadFrom
    | @save i hi hdef =>
        -- What is saved has just been written.
        rcases hmem with hdef' | hread
        · exact absurd hdef' not_mem_defs_saveTo
        · rw [mem_reads_saveTo.mp hread]
          exact Or.inl (hold i hi _ (Or.inl hdef))

end Blocks

namespace SpillsTo

variable {g : Function M}

theorem stale_code (h : f.SpillsTo slot v Fresh g) {block : Block M} (hb : block ∈ f.blocks) :
    Stale Fresh block.code := fun _ hi w hw =>
  ⟨fun hdef => h.stale w hw (mem_registers_of_instr hb hi (Or.inl hdef)),
    fun hread => h.stale w hw (mem_registers_of_instr hb hi (Or.inr hread))⟩

/-- The block before the spill. -/
theorem block_of (h : f.SpillsTo slot v Fresh g) {b : Nat} {c : Block M}
    (hc : g.blocks[b]? = some c) :
    ∃ block, f.blocks[b]? = some block ∧ block.SpillsTo slot v Fresh c :=
  getElem?_of_forall₂ h.blocks.flip hc

theorem next_eq (h : f.SpillsTo slot v Fresh g) : g.next = f.next :=
  next_congr (map_eq_of_forall₂ h.blocks fun _ _ _ hbc => hbc.successors_eq)

/-- A register that is not fresh is written where it was. -/
theorem defines_iff (h : f.SpillsTo slot v Fresh g)
    (hquiet : ∀ b ∈ f.blocks, ∀ i ∈ b.run, i.defs = []) {r : Register M}
    (hr : ∀ w, Fresh w → r ≠ .virtual w) {b : Nat} : g.Defines b r ↔ f.Defines b r := by
  constructor
  · rintro ⟨c, hc, hdef⟩
    rcases h.block_of hc with ⟨block, hblock, hspills⟩
    have hrun := hquiet block (List.mem_of_getElem? hblock)
    exact ⟨block, hblock, (hspills.defines_iff hrun hr).mp hdef⟩
  · rintro ⟨block, hblock, hdef⟩
    rcases getElem?_of_forall₂ h.blocks hblock with ⟨c, hc, hspills⟩
    have hrun := hquiet block (List.mem_of_getElem? hblock)
    exact ⟨c, hc, (hspills.defines_iff hrun hr).mpr hdef⟩

/-- The registers that occur after the spill, by their kind. -/
theorem kinds (v : VReg M) (Fresh : VReg M → Prop) (r : Register M) :
    (r = .virtual v ∨ ∃ w, Fresh w ∧ r = .virtual w) ∨ Untouched v Fresh r := by
  by_cases hr : r = .virtual v ∨ ∃ w, Fresh w ∧ r = .virtual w
  · exact Or.inl hr
  · refine Or.inr ⟨fun hv => hr (Or.inl hv), fun w hw hrw => hr (Or.inr ⟨w, hw, hrw⟩)⟩

theorem inputs_eq_nil (h : f.SpillsTo slot v Fresh g) (hin : ∀ b ∈ f.blocks, b.inputs = []) :
    ∀ c ∈ g.blocks, c.inputs = [] :=
  inputs_of_blocks h.blocks hin

/-- The terminators write nothing if they wrote nothing. -/
theorem quiet (h : f.SpillsTo slot v Fresh g)
    (hquiet : ∀ b ∈ f.blocks, ∀ i ∈ b.run, i.defs = []) :
    ∀ c ∈ g.blocks, ∀ j ∈ c.run, j.defs = [] := by
  intro c hc j hj
  rcases exists_left_of_forall₂ h.blocks hc with ⟨b, hb, hbc⟩
  rcases hbc.cut with ⟨_, _, _, hrun, _⟩
  rcases hrun.mem_cases hj with ⟨hj, _⟩ | ⟨i, hi, w, _, _, rfl⟩
  · exact hquiet b hb j hj
  · exact hquiet b hb i hi

/-- The registers of a spilled function are those from before and the new ones. -/
theorem mem_registers_cases (h : f.SpillsTo slot v Fresh g)
    (hin : ∀ b ∈ f.blocks, b.inputs = []) {r : Register M} (hr : r ∈ g.registers) :
    r ∈ f.registers ∨ ∃ w, Fresh w ∧ r = .virtual w :=
  mem_registers_of_blocks h.blocks hin hr

/-- The written registers are still settled. -/
theorem settled (h : f.SpillsTo slot v Fresh g) (hf : f.Tractable) {u : VReg M} {k : Nat}
    (hdef : g.Defines k (.virtual u)) : (g.presence (.virtual u)).Settled g.next := by
  have hin := h.inputs_eq_nil hf.inputs
  have hsolitary := Register.solitary_virtual u
  rcases kinds v Fresh (.virtual u) with hnew | hold
  · -- Nothing reads the register before a write, so it is live nowhere.
    have hlive : ∀ b, ¬ g.LiveInto (.virtual u) b := by
      intro b hb
      induction hb with
      | here hc hexposes =>
          rcases h.block_of hc with ⟨block, hblock, hspills⟩
          exact hspills.not_exposes (h.stale_code (List.mem_of_getElem? hblock)) hnew hexposes
      | there _ _ _ ih => exact ih
    refine .of_not_through fun b hthrough => ?_
    rcases ((through_iff hin hsolitary).mp hthrough).2 with ⟨c, _, hc⟩
    exact hlive c hc
  · -- Any other register occurs in the same blocks, and the graph is the same.
    rw [h.next_eq]
    have hsettled := hf.settled u k ((h.defines_iff hf.quiet hold.2).mp hdef)
    refine hsettled.congr (fun b => ?_) (fun b => ?_)
    · rw [mem_exposed_iff hin hsolitary, mem_exposed_iff hf.inputs hsolitary]
      constructor
      · rintro ⟨c, hc, hexposes⟩
        rcases h.block_of hc with ⟨block, hblock, hspills⟩
        exact ⟨block, hblock, (hspills.exposes_iff hold).mp hexposes⟩
      · rintro ⟨block, hblock, hexposes⟩
        rcases getElem?_of_forall₂ h.blocks hblock with ⟨c, hc, hspills⟩
        exact ⟨c, hc, (hspills.exposes_iff hold).mpr hexposes⟩
    · rw [mem_written_iff, mem_written_iff, h.defines_iff hf.quiet hold.2]

end SpillsTo

/-- The ids of a function are below `m`, and that is where the supply goes on. -/
structure Numbered (f : Function M) (supply : Supply) (m : Nat) : Prop where
  ids : f.IdsBelow m
  registers : supply.registers % Supply.capacity = m % Supply.capacity

namespace Numbered

variable {m : Nat}

/-- Without wrapping around, the supply counts on. -/
theorem regId_eq (h : f.Numbered supply m) {j : Nat} (hj : m + j < Supply.capacity) :
    supply.regId j = m + j :=
  Supply.regId_eq_add h.registers hj

theorem freshFor (h : f.Numbered supply m) {n : Nat} (hn : m + n ≤ Supply.capacity) :
    supply.FreshFor f n := by
  intro j hj u hu
  rw [h.regId_eq (by omega)]
  have hid := h.ids u hu
  omega

/-- The reloaded registers have the next numbers. -/
theorem reloads_eq_range (h : f.Numbered supply m) (hspill : f.spill v supply = .ok s)
    (hm : m + s.reloads.length ≤ Supply.capacity) :
    s.reloads = List.range' m s.reloads.length := by
  rw [reloads_eq hspill, Supply.ids, List.length_map, List.length_range, List.range'_eq_map_range]
  refine List.map_congr_left fun j hj => ?_
  have hlt := List.mem_range.mp hj
  rw [h.regId_eq (by omega)]

/-- A spill leaves the supply above the new ids. -/
theorem spill (h : f.Numbered supply m) (hin : ∀ b ∈ f.blocks, b.inputs = [])
    (hspill : f.spill v supply = .ok s) (hm : m + s.reloads.length ≤ Supply.capacity) :
    s.func.Numbered s.supply (m + s.reloads.length) := by
  refine ⟨fun u hu => ?_, ?_⟩
  · rcases (spillsTo_of_spill hspill (h.freshFor hm)).mem_registers_cases hin hu with
      hold | ⟨w, hw, heq⟩
    · have hid := h.ids u hold
      omega
    · obtain rfl := Register.virtual.inj heq
      have hid := hw.1
      rw [h.reloads_eq_range hspill hm, List.mem_range'_1] at hid
      omega
  · exact registers_spill hspill h.registers

end Numbered

/-- The analysis stays exact when a register is spilled. -/
theorem Tractable.spill {g : Function M} (hf : f.Tractable) (h : f.SpillsTo slot v Fresh g) :
    g.Tractable where
  inputs := h.inputs_eq_nil hf.inputs
  terminated c hc := by
    rcases exists_left_of_forall₂ h.blocks hc with ⟨b, hb, hbc⟩
    exact hbc.terminated (hf.terminated b hb)
  quiet := h.quiet hf.quiet
  reached := by
    rw [h.next_eq, show g.size = f.size from h.blocks.length_eq.symm]
    exact hf.reached
  once c hc j hj u := by
    rcases exists_left_of_forall₂ h.blocks hc with ⟨b, hb, hbc⟩
    cases hbc.spilledFrom hj with
    | kept hi => exact hf.once b hb j hi u
    | @changed i hi w _ => exact hf.once b hb i hi u
    | reload _ => exact List.count_le_length
    | save _ _ => exact Nat.zero_le _
  apart c hc j hj u hdef hread := by
    rcases exists_left_of_forall₂ h.blocks hc with ⟨b, hb, hbc⟩
    cases hbc.spilledFrom hj with
    | kept hi => exact hf.apart b hb j hi u hdef hread
    | @changed i hi w hw =>
        rcases Instr.mem_reads_readInstead.mp hread with ⟨hread, _⟩ | ⟨heq, _⟩
        · exact hf.apart b hb i hi u hdef hread
        · -- A fresh register is not among the results.
          rw [heq] at hdef
          exact (h.stale_code hb i hi w hw).1 hdef
    | reload _ => exact not_mem_reads_reloadFrom hread
    | save _ _ => exact not_mem_defs_saveTo hdef
  settled u k hdef := h.settled hf hdef

end Function

end RegisterColoring
