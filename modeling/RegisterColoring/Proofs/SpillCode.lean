import Mathlib.Data.Finset.Card
import Mathlib.Data.Finset.Dedup
import RegisterColoring.Proofs.LocalRanges
import RegisterColoring.Proofs.SpilledRuns

/-!
# Registers in Spill Code

What spilling leaves to the registers it has touched. A spilled register holds a value
only between its write and the save behind it. A reloaded register holds one from the
reload to the instruction it was reloaded for, and all that stands between the two are
other reloads for the same instruction. The terminators of a block count as one
instruction here, since their reloads come before all of them.

These registers are not spilled again. What makes up for it is that of all of them only
those reloaded for the same operands are ever alive at once, so they never take more
registers than an instruction reads. Spilling yet another register keeps it that way.

## Main definitions

* `Awaits`: The operands that a reloaded register is read among.
* `Tidy`: Spilled and reloaded registers are written as spilling leaves it.
* `Function.Fits`: No instruction needs more registers than there are.
* `Function.Tended`: A function after some spills.

## Theorems

* `Awaits.unique`: Registers reloaded at one place await the same operands.
* `Tidy.meet`: Registers of spill code that are alive at once await the same operands.
* `Tidy.spill`: What another spill keeps of a block.
* `Function.Fits.spill`, `Function.Tended.spill`: What it keeps of a function.
* `Function.Tended.exists_operands`: The registers alive beside one of spill code.
-/

namespace RegisterColoring

variable {M : Machine}

/-- The number of different registers that an instruction reads. -/
def Instr.readCount (i : Instr M) : Nat :=
  i.reads.toFinset.card

/-- How many registers instructions read, one by one. -/
def readCounts (code : List (Instr M)) : Nat :=
  (code.map Instr.readCount).foldr (· + ·) 0

/-- Reloads stand before the operands `L` that register `w` is read among, and it is not
    read behind them. If the code ends there, `L` is what the terminators read. -/
inductive Awaits (Temp : VReg M → Prop) (run : List (Instr M)) (w : VReg M) :
    List (Instr M) → List (Register M) → Prop where
  | atEnd {i : Instr M} (hi : i ∈ run) (hread : .virtual w ∈ i.reads) :
      Awaits Temp run w [] (run.flatMap Instr.reads)
  | here {i : Instr M} {rest : List (Instr M)} (hread : .virtual w ∈ i.reads)
      (hdone : ¬ Needs (.virtual w) (rest ++ run)) : Awaits Temp run w (i :: rest) i.reads
  | load {slot : Slot} {u : VReg M} {rest : List (Instr M)} {L : List (Register M)} (hu : Temp u)
      (h : Awaits Temp run w rest L) : Awaits Temp run w (reloadFrom slot u :: rest) L

/-- What stands behind a write of a register of spill code: the operands that a reloaded
    one awaits, or the save of a spilled one, which is its last read. -/
structure TidyAt (Temp Spilled : VReg M → Prop) (run : List (Instr M)) (i : Instr M)
    (rest : List (Instr M)) : Prop where
  reloaded : ∀ w, Temp w → .virtual w ∈ i.defs →
    (∃ slot, i = reloadFrom slot w) ∧ ∃ L, Awaits Temp run w rest L
  saved : ∀ x, Spilled x → .virtual x ∈ i.defs →
    ∃ slot back, rest = saveTo slot x :: back ∧ ¬ Needs (.virtual x) (back ++ run)

/-- All writes of spilled and reloaded registers are followed by what belongs there. -/
def Tidy (Temp Spilled : VReg M → Prop) (run : List (Instr M)) : List (Instr M) → Prop
  | [] => True
  | i :: rest => TidyAt Temp Spilled run i rest ∧ Tidy Temp Spilled run rest

variable {Temp Spilled : VReg M → Prop} {run : List (Instr M)}

/-- Terminators together read no more registers than one by one. -/
theorem card_flatMap_reads (run : List (Instr M)) :
    (run.flatMap Instr.reads).toFinset.card ≤ readCounts run := by
  induction run with
  | nil => rfl
  | cons i run ih =>
      rw [List.flatMap_cons, List.toFinset_append]
      exact Nat.le_trans (Finset.card_union_le _ _) (Nat.add_le_add_left ih _)

namespace Awaits

variable {w : VReg M} {code : List (Instr M)} {L : List (Register M)}

theorem mem (h : Awaits Temp run w code L) : .virtual w ∈ L := by
  induction h with
  | atEnd hi hread => exact List.mem_flatMap.mpr ⟨_, hi, hread⟩
  | here hread _ => exact hread
  | load _ _ ih => exact ih

/-- Registers reloaded at one place await the same operands. -/
theorem unique (h : Awaits Temp run w code L) {u : VReg M} {L' : List (Register M)}
    (h' : Awaits Temp run u code L') : L = L' := by
  induction h with
  | atEnd _ _ =>
      cases h'
      rfl
  | here hread _ =>
      cases h' with
      | here _ _ => rfl
      | load _ _ => exact absurd hread not_mem_reads_reloadFrom
  | load _ _ ih =>
      cases h' with
      | here hread _ => exact absurd hread not_mem_reads_reloadFrom
      | load _ h' => exact ih h'

/-- Up to its last read, only reloads stand behind the reload of a register. -/
theorem reload_before (h : Awaits Temp run w code L) {j m : Nat}
    (hsees : Sees (.virtual w) (code ++ run) j) (hm : m < j) {i : Instr M}
    (hi : code[m]? = some i) :
    (∃ slot u, Temp u ∧ i = reloadFrom slot u) ∧ Awaits Temp run w (code.drop (m + 1)) L := by
  induction h generalizing j m with
  | atEnd _ _ => exact absurd hi (by simp)
  | here _ hdone =>
      -- A read behind the operands would be one that the register is not done before.
      cases j with
      | zero => omega
      | succ j => exact absurd ⟨j, (sees_succ.mp hsees).2⟩ hdone
  | load hu h ih =>
      cases j with
      | zero => omega
      | succ j =>
          cases m with
          | zero =>
              obtain rfl : reloadFrom _ _ = i := by simpa using hi
              exact ⟨⟨_, _, hu, rfl⟩, h⟩
          | succ m => exact ih (sees_succ.mp hsees).2 (by omega) (by simpa using hi)

/-- A register that is reloaded for an instruction is one of no more than it reads. -/
theorem card_le (h : Awaits Temp run w code L) {k : Nat} (hcode : ∀ i ∈ code, i.readCount ≤ k)
    (hrun : readCounts run ≤ k) : L.toFinset.card ≤ k := by
  induction h with
  | atEnd _ _ => exact Nat.le_trans (card_flatMap_reads run) hrun
  | here _ _ => exact hcode _ List.mem_cons_self
  | load _ _ ih => exact ih fun i hi => hcode i (List.mem_cons_of_mem _ hi)

/-- Reloads may stand before other code. -/
theorem of_loads {loads : List (Instr M)}
    (hloads : ∀ j ∈ loads, ∃ slot u, Temp u ∧ j = reloadFrom slot u)
    (h : Awaits Temp run w code L) : Awaits Temp run w (loads ++ code) L := by
  induction loads with
  | nil => exact h
  | cons j loads ih =>
      rcases hloads j List.mem_cons_self with ⟨slot, u, hu, rfl⟩
      exact .load hu (ih fun k hk => hloads k (List.mem_cons_of_mem _ hk))

end Awaits

namespace Tidy

variable {code : List (Instr M)}

theorem get (h : Tidy Temp Spilled run code) {a : Nat} {i : Instr M} (hi : code[a]? = some i) :
    TidyAt Temp Spilled run i (code.drop (a + 1)) := by
  induction code generalizing a with
  | nil => exact absurd hi (by simp)
  | cons j code ih =>
      cases a with
      | zero =>
          obtain rfl : j = i := by simpa using hi
          exact h.1
      | succ a => exact ih h.2 (by simpa using hi)

/-- A register of spill code that is alive where another one is written was reloaded, and
    so was the other, for the same operands. -/
theorem meet (h : Tidy Temp Spilled run code) {u w : VReg M} (hu : Temp u ∨ Spilled u)
    {a b j : Nat} {i i' : Instr M} (hi : code[a]? = some i)
    (hdef : .virtual u ∈ i.defs) (hi' : code[b]? = some i') (hdef' : .virtual w ∈ i'.defs)
    (hab : a < b) (hsees : Sees (.virtual u) (code.drop (a + 1) ++ run) j) (hbj : b < a + 1 + j) :
    Temp u ∧ Temp w ∧ ∃ L, Awaits Temp run u (code.drop (a + 1)) L ∧
      Awaits Temp run w (code.drop (b + 1)) L := by
  have hat : (code.drop (a + 1))[b - (a + 1)]? = some i' := by
    rw [List.getElem?_drop, Nat.add_sub_cancel' hab]
    exact hi'
  rcases hu with hu | hu
  · rcases ((h.get hi).reloaded u hu hdef).2 with ⟨L, hL⟩
    rcases hL.reload_before hsees (by omega) hat with ⟨⟨slot, x, hx, rfl⟩, hlater⟩
    obtain rfl := Register.virtual.inj (mem_defs_reloadFrom.mp hdef')
    rw [List.drop_drop, show a + 1 + (b - (a + 1) + 1) = b + 1 by omega] at hlater
    -- Both await what comes behind the later reload.
    rcases ((h.get hi').reloaded w hx hdef').2 with ⟨L', hL'⟩
    rw [← hlater.unique hL'] at hL'
    exact ⟨hu, hx, L, hL, hL'⟩
  · -- The save comes right after the write, and nothing reads the register behind it.
    rcases (h.get hi).saved u hu hdef with ⟨slot, back, hback, hdone⟩
    rw [hback, List.cons_append] at hsees
    cases j with
    | zero => omega
    | succ j => exact absurd ⟨j, (sees_succ.mp hsees).2⟩ hdone

end Tidy

section Spill

variable {slot : Slot} {v : VReg M} {Fresh : VReg M → Prop}
  {code code' reloads run' : List (Instr M)}

theorem saveAfter_eq_nil {i : Instr M} (h : .virtual v ∉ i.defs) : saveAfter slot v i = [] :=
  if_neg fun hwrites => h (Instr.writesV_iff.mp hwrites)

theorem saveAfter_eq_singleton {i : Instr M} (h : .virtual v ∈ i.defs) :
    saveAfter slot v i = [saveTo slot v] :=
  if_pos (Instr.writesV_iff.mpr h)

/-- A save reads nothing but the spilled register. -/
theorem needs_saveAfter_of_ne {i : Instr M} {r : Register M} (hr : r ≠ .virtual v) :
    Needs r (saveAfter slot v i ++ code) ↔ Needs r code := by
  by_cases hdef : .virtual v ∈ i.defs
  · rw [saveAfter_eq_singleton hdef, List.singleton_append, needs_cons, mem_reads_saveTo]
    simp [hr, not_mem_defs_saveTo]
  · rw [saveAfter_eq_nil hdef, List.nil_append]

/-- A terminator still reads a register that the spill leaves alone. -/
theorem Hoisted.exists_read (h : Hoisted slot v Fresh run reloads run') {r : Register M}
    (hr : Untouched v Fresh r) {i : Instr M} (hi : i ∈ run) (hread : r ∈ i.reads) :
    ∃ j ∈ run', r ∈ j.reads := by
  induction h with
  | nil => exact absurd hi (by simp)
  | @keep k _ _ _ _ _ ih =>
      rcases List.mem_cons.mp hi with rfl | hi
      · exact ⟨i, List.mem_cons_self, hread⟩
      · rcases ih hi with ⟨j, hj, hread⟩
        exact ⟨j, List.mem_cons_of_mem _ hj, hread⟩
  | @reload k _ w hw _ _ _ _ ih =>
      rcases List.mem_cons.mp hi with rfl | hi
      · exact ⟨_, List.mem_cons_self, (hr.mem_reads_readInstead hw).mpr hread⟩
      · rcases ih hi with ⟨j, hj, hread⟩
        exact ⟨j, List.mem_cons_of_mem _ hj, hread⟩

/-- What is reloaded for the terminators is read by one of them. -/
theorem Hoisted.exists_reader (h : Hoisted slot v Fresh run reloads run') {j : Instr M}
    (hj : j ∈ reloads) :
    ∃ w, Fresh w ∧ j = reloadFrom slot w ∧ ∃ i ∈ run', .virtual w ∈ i.reads := by
  induction h with
  | nil => exact absurd hj (by simp)
  | keep _ _ ih =>
      rcases ih hj with ⟨w, hw, heq, i, hi, hread⟩
      exact ⟨w, hw, heq, i, List.mem_cons_of_mem _ hi, hread⟩
  | @reload i hread w hw _ _ _ _ ih =>
      rcases List.mem_cons.mp hj with rfl | hj
      · refine ⟨w, hw, rfl, _, List.mem_cons_self, ?_⟩
        exact Instr.mem_reads_readInstead.mpr (Or.inr ⟨rfl, hread⟩)
      · rcases ih hj with ⟨w, hw, heq, i, hi, hread⟩
        exact ⟨w, hw, heq, i, List.mem_cons_of_mem _ hi, hread⟩

/-- A save of another register stays where it is. -/
theorem SpillsTo.of_save {saved : Slot} {x : VReg M} (hx : x ≠ v) {rest : List (Instr M)}
    (h : SpillsTo slot v Fresh (saveTo saved x :: rest) code') :
    ∃ rest', code' = saveTo saved x :: rest' ∧ SpillsTo slot v Fresh rest rest' := by
  cases h with
  | keep _ hrest =>
      rw [saveAfter_eq_nil not_mem_defs_saveTo]
      exact ⟨_, rfl, hrest⟩
  | reload hread _ _ =>
      exact absurd (Register.virtual.inj (mem_reads_saveTo.mp hread)).symm hx

theorem Tidy.saveAfter_append (i : Instr M) (h : Tidy Temp Spilled run code) :
    Tidy Temp Spilled run (saveAfter slot v i ++ code) := by
  by_cases hdef : .virtual v ∈ i.defs
  · rw [saveAfter_eq_singleton hdef]
    exact ⟨⟨fun _ _ hdef => absurd hdef not_mem_defs_saveTo,
      fun _ _ hdef => absurd hdef not_mem_defs_saveTo⟩, h⟩
  · rw [saveAfter_eq_nil hdef]
    exact h

variable (hrun : Hoisted slot v Fresh run reloads run')
include hrun

/-- A register that was reloaded before awaits its operands in the code after the spill. -/
theorem Awaits.spill {w : VReg M} {L : List (Register M)} (h : Awaits Temp run w code L)
    (hcode : SpillsTo slot v Fresh code code') (hw : Untouched v Fresh (.virtual w))
    (hv : ¬ Temp v) :
    ∃ L', Awaits (fun u => Temp u ∨ Fresh u) run' w (code' ++ reloads) L' := by
  have hloads : ∀ j ∈ reloads, ∃ slot u, (Temp u ∨ Fresh u) ∧ j = reloadFrom slot u := by
    intro j hj
    rcases hrun.mem_reloads hj with ⟨u, hu, rfl⟩
    exact ⟨slot, u, Or.inr hu, rfl⟩
  induction h generalizing code' with
  | atEnd hi hread =>
      cases hcode
      rcases hrun.exists_read hw hi hread with ⟨j, hj, hread⟩
      have hend := Awaits.of_loads hloads (.atEnd hj hread)
      rw [List.append_nil] at hend
      exact ⟨_, hend⟩
  | @here i rest hread hdone =>
      -- The spill adds no read of a register that it leaves alone.
      have hdone' : ∀ rest', SpillsTo slot v Fresh rest rest' →
          ¬ Needs (.virtual w) (saveAfter slot v i ++ rest' ++ reloads ++ run') := by
        intro rest' hrest hneeds
        rw [List.append_assoc, List.append_assoc, needs_saveAfter_of_ne hw.1,
          hrest.needs_append_iff hrun hw] at hneeds
        exact hdone hneeds
      cases hcode with
      | keep _ hrest => exact ⟨_, .here hread (hdone' _ hrest)⟩
      | reload _ hfresh hrest =>
          refine ⟨_, .load (Or.inr hfresh) (.here ?_ (hdone' _ hrest))⟩
          exact (hw.mem_reads_readInstead hfresh).mpr hread
  | @load saved u rest L hu h ih =>
      -- A reload reads nothing, and it is kept without a save because `v` was not reloaded.
      cases hcode with
      | keep _ hrest =>
          have hne : .virtual v ∉ (reloadFrom saved u).defs := by
            rw [mem_defs_reloadFrom]
            intro heq
            exact hv (Register.virtual.inj heq ▸ hu)
          rcases ih hrest with ⟨L', hL'⟩
          rw [saveAfter_eq_nil hne]
          exact ⟨L', .load (Or.inl hu) hL'⟩
      | reload hread _ _ => exact absurd hread not_mem_reads_reloadFrom

/-- The reloads for the terminators stand in order. -/
theorem Tidy.of_hoisted (hv : ¬ Fresh v) (hspilled : ∀ w, Fresh w → ¬ Spilled w) :
    Tidy (fun u => Temp u ∨ Fresh u) (fun u => Spilled u ∨ u = v) run' reloads := by
  -- Behind each of them stand more of them, and then the terminators.
  have hloads : ∀ loads : List (Instr M), (∀ j ∈ loads, j ∈ reloads) →
      Tidy (fun u => Temp u ∨ Fresh u) (fun u => Spilled u ∨ u = v) run' loads := by
    intro loads hsub
    induction loads with
    | nil => exact trivial
    | cons j loads ih =>
        have hsub' : ∀ k ∈ loads, k ∈ reloads := fun k hk => hsub k (List.mem_cons_of_mem _ hk)
        rcases hrun.exists_reader (hsub j List.mem_cons_self) with ⟨w, hw, rfl, i, hi, hread⟩
        refine ⟨⟨fun u _ hdef => ?_, fun x hx hdef => ?_⟩, ih hsub'⟩
        · obtain rfl := Register.virtual.inj (mem_defs_reloadFrom.mp hdef)
          have hend : Awaits (fun u => Temp u ∨ Fresh u) run' u (loads ++ [])
              (run'.flatMap Instr.reads) := by
            refine .of_loads (fun k hk => ?_) (.atEnd hi hread)
            rcases hrun.mem_reloads (hsub' k hk) with ⟨y, hy, rfl⟩
            exact ⟨slot, y, Or.inr hy, rfl⟩
          rw [List.append_nil] at hend
          exact ⟨⟨slot, rfl⟩, _, hend⟩
        · obtain rfl := Register.virtual.inj (mem_defs_reloadFrom.mp hdef)
          rcases hx with hx | rfl
          · exact absurd hx (hspilled x hw)
          · exact absurd hw hv
  exact hloads reloads fun j hj => hj

/-- The save of a spilled register stands behind its write. -/
theorem TidyAt.saved_spill {i : Instr M} {rest rest' : List (Instr M)}
    (h : TidyAt Temp Spilled run i rest) (hrest : SpillsTo slot v Fresh rest rest')
    (hv : ¬ Spilled v) (hone : ∀ r ∈ i.defs, ∀ q ∈ i.defs, r = q)
    (hstale : Stale Fresh (i :: rest)) (hstaleRun : Stale Fresh run) {x : VReg M}
    (hx : Spilled x ∨ x = v) (hdef : .virtual x ∈ i.defs) :
    ∃ saved back, saveAfter slot v i ++ (rest' ++ reloads) = saveTo saved x :: back ∧
      ¬ Needs (.virtual x) (back ++ run') := by
  rcases hx with hx | rfl
  · have hxv : x ≠ v := fun heq => hv (heq ▸ hx)
    -- The instruction writes nothing else, so nothing is saved in between.
    have hnot : .virtual v ∉ i.defs := fun hvdef =>
      hxv (Register.virtual.inj (hone _ hdef _ hvdef))
    rcases h.saved x hx hdef with ⟨saved, back, rfl, hdone⟩
    rcases hrest.of_save hxv with ⟨back', rfl, hback⟩
    refine ⟨saved, back' ++ reloads, by rw [saveAfter_eq_nil hnot]; rfl, ?_⟩
    rw [List.append_assoc, hback.needs_append_iff hrun]
    · exact hdone
    · refine ⟨fun heq => hxv (Register.virtual.inj heq), fun w hw heq => ?_⟩
      exact (hstale i List.mem_cons_self w hw).1 (heq ▸ hdef)
  · refine ⟨slot, rest' ++ reloads, by rw [saveAfter_eq_singleton hdef]; rfl, ?_⟩
    rw [List.append_assoc]
    exact hrest.not_needs_append hrun hstale.cons.2 hstaleRun (Or.inl rfl)

/-- Another spill leaves the registers of spill code in order, and those that it adds. -/
theorem Tidy.spill (h : Tidy Temp Spilled run code) (hcode : SpillsTo slot v Fresh code code')
    (hv : ¬ (Temp v ∨ Spilled v)) (hvFresh : ¬ Fresh v) (hspilled : ∀ w, Fresh w → ¬ Spilled w)
    (hone : ∀ i ∈ code, ∀ r ∈ i.defs, ∀ q ∈ i.defs, r = q) (hstale : Stale Fresh code)
    (hstaleRun : Stale Fresh run) :
    Tidy (fun u => Temp u ∨ Fresh u) (fun u => Spilled u ∨ u = v) run' (code' ++ reloads) := by
  have hvTemp : ¬ Temp v := fun hT => hv (Or.inl hT)
  have hvSpilled : ¬ Spilled v := fun hS => hv (Or.inr hS)
  induction hcode with
  | nil => exact Tidy.of_hoisted hrun hvFresh hspilled
  | @keep i hread code code' hrest ih =>
      -- The instruction stays as it was, and a save may come right behind it.
      have hsaved := fun x => h.1.saved_spill hrun hrest hvSpilled (hone i List.mem_cons_self) hstale
        hstaleRun (x := x)
      have hrestTidy := ih h.2 (fun j hj => hone j (List.mem_cons_of_mem _ hj)) hstale.cons.2
      rw [List.cons_append, List.append_assoc]
      refine ⟨⟨fun w hw hdef => ?_, hsaved⟩, hrestTidy.saveAfter_append i⟩
      · rcases hw with hw | hw
        · rcases h.1.reloaded w hw hdef with ⟨⟨saved, rfl⟩, L, hL⟩
          have hnot : .virtual v ∉ (reloadFrom saved w).defs := by
            rw [mem_defs_reloadFrom]
            exact fun heq => hvTemp (Register.virtual.inj heq ▸ hw)
          rw [saveAfter_eq_nil hnot]
          refine ⟨⟨saved, rfl⟩, hL.spill hrun hrest ⟨?_, fun u hu heq => ?_⟩ hvTemp⟩
          · exact fun heq => hvTemp (Register.virtual.inj heq ▸ hw)
          · exact (hstale _ List.mem_cons_self u hu).1 (heq ▸ hdef)
        · exact absurd hdef (hstale i List.mem_cons_self w hw).1
  | @reload i hread w hw code code' hrest ih =>
      have hsaved := fun x => h.1.saved_spill hrun hrest hvSpilled (hone i List.mem_cons_self) hstale
        hstaleRun (x := x)
      have hrestTidy := ih h.2 (fun j hj => hone j (List.mem_cons_of_mem _ hj)) hstale.cons.2
      have hwv : (Register.virtual w) ≠ .virtual v := fun heq =>
        hvFresh (Register.virtual.inj heq ▸ hw)
      rw [List.cons_append, List.cons_append, List.append_assoc]
      refine ⟨⟨fun u _ hdef => ?_, fun x hx hdef => ?_⟩, ⟨fun u hu hdef => ?_, hsaved⟩,
        hrestTidy.saveAfter_append i⟩
      · -- The fresh register is read by the instruction behind the reload and not after it.
        obtain rfl := Register.virtual.inj (mem_defs_reloadFrom.mp hdef)
        refine ⟨⟨slot, rfl⟩, _, .here (Instr.mem_reads_readInstead.mpr (Or.inr ⟨rfl, hread⟩)) ?_⟩
        rw [List.append_assoc, List.append_assoc, needs_saveAfter_of_ne hwv]
        exact hrest.not_needs_append hrun hstale.cons.2 hstaleRun (Or.inr ⟨u, hw, rfl⟩)
      · obtain rfl := Register.virtual.inj (mem_defs_reloadFrom.mp hdef)
        rcases hx with hx | rfl
        · exact absurd hx (hspilled x hw)
        · exact absurd hw hvFresh
      · rcases hu with hu | hu
        · rcases (h.1.reloaded u hu hdef).1 with ⟨saved, rfl⟩
          exact absurd hread not_mem_reads_reloadFrom
        · exact absurd hdef (hstale i List.mem_cons_self u hu).1

end Spill

theorem Register.map_cls_eq_some_iff {r : Register M} {c : M.Class} :
    r.virtual?.map VReg.cls = some c ↔ ∃ v : VReg M, r = .virtual v ∧ v.cls = c := by
  cases r <;> simp [Register.virtual?]

namespace Function

/-- All registers have class `c`, and no instruction reads more than `k` of them. The
    terminators of a block write nothing and read no more than `k` together. -/
structure Fits (f : Function M) (c : M.Class) (k : Nat) : Prop where
  inputs : ∀ b ∈ f.blocks, b.inputs = []
  registers : ∀ r ∈ f.registers, ∃ v : VReg M, r = .virtual v ∧ v.cls = c
  reads : ∀ b ∈ f.blocks, ∀ i ∈ b.body, i.readCount ≤ k
  defs : ∀ b ∈ f.blocks, ∀ i ∈ b.body, i.defs.toFinset.card ≤ 1
  quiet : ∀ b ∈ f.blocks, ∀ i ∈ b.run, i.defs = []
  run : ∀ b ∈ f.blocks, readCounts b.run ≤ k

instance (f : Function M) (c : M.Class) (k : Nat) : Decidable (f.Fits c k) :=
  decidable_of_iff ((∀ b ∈ f.blocks, b.inputs = []) ∧
    (∀ r ∈ f.registers, r.virtual?.map VReg.cls = some c) ∧
    (∀ b ∈ f.blocks, ∀ i ∈ b.body, i.readCount ≤ k) ∧
    (∀ b ∈ f.blocks, ∀ i ∈ b.body, i.defs.toFinset.card ≤ 1) ∧
    (∀ b ∈ f.blocks, ∀ i ∈ b.run, i.defs = []) ∧
    ∀ b ∈ f.blocks, readCounts b.run ≤ k) <| by
  simp only [Register.map_cls_eq_some_iff]
  exact ⟨fun ⟨h₁, h₂, h₃, h₄, h₅, h₆⟩ => ⟨h₁, h₂, h₃, h₄, h₅, h₆⟩,
    fun h => ⟨h.inputs, h.registers, h.reads, h.defs, h.quiet, h.run⟩⟩

/-- A function after spills, whose new ids are below `m`. The registers of spill code are
    needed by no block, written as spilling leaves it, and reloaded in one place. -/
structure Tended (f : Function M) (m : Nat) (Temp Spilled : VReg M → Prop) : Prop where
  below : ∀ u, Temp u ∨ Spilled u → u.id < m
  unexposed : ∀ u, Temp u ∨ Spilled u → ∀ b ∈ f.blocks, ¬ b.Exposes (.virtual u)
  tidy : ∀ b ∈ f.blocks, Tidy Temp Spilled b.run b.body
  once : ∀ w, Temp w → f.instructions.countP (·.writesV w) ≤ 1

theorem tended_none (f : Function M) (m : Nat) :
    f.Tended m (fun _ => False) fun _ => False := by
  have htidy : ∀ run code : List (Instr M), Tidy (fun _ => False) (fun _ => False) run code := by
    intro run code
    induction code with
    | nil => exact trivial
    | cons i code ih => exact ⟨⟨fun _ h => h.elim, fun _ h => h.elim⟩, ih⟩
  exact ⟨fun u hu => (or_self_iff.mp hu).elim, fun u hu => (or_self_iff.mp hu).elim,
    fun b _ => htidy b.run b.body, fun w hw => hw.elim⟩

variable {f g : Function M} {c : M.Class} {k : Nat}

theorem Fits.one_def (hf : f.Fits c k) {b : Block M} (hb : b ∈ f.blocks) {i : Instr M}
    (hi : i ∈ b.body) {r q : Register M} (hr : r ∈ i.defs) (hq : q ∈ i.defs) : r = q :=
  Finset.card_le_one.mp (hf.defs b hb i hi) r (List.mem_toFinset.mpr hr) q
    (List.mem_toFinset.mpr hq)

section Spill

variable {slot : Slot} {v : VReg M} {Fresh : VReg M → Prop}

/-- Reading another register in place of the spilled one does not take more of them. -/
theorem readCount_readInstead (i : Instr M) (w : VReg M) :
    (i.readInstead v w).readCount ≤ i.readCount := by
  have himage : (i.readInstead v w).reads.toFinset =
      i.reads.toFinset.image fun r => if r = .virtual v then .virtual w else r := by
    rw [Instr.reads_rename (i.uses_readInstead w)]
    ext r
    simp
  unfold Instr.readCount
  rw [himage]
  exact Finset.card_image_le

theorem readCounts_le {run reloads run' : List (Instr M)}
    (h : Hoisted slot v Fresh run reloads run') :
    readCounts run' ≤ readCounts run := by
  induction h with
  | nil => exact Nat.le_refl _
  | keep _ _ ih => exact Nat.add_le_add_left ih _
  | @reload i _ w _ _ _ _ _ ih => exact Nat.add_le_add (readCount_readInstead i w) ih

/-- A spill leaves a function that fits. -/
theorem Fits.spill (hf : f.Fits c k) (hk : 1 ≤ k) (h : f.SpillsTo slot v Fresh g)
    (hclass : ∀ w, Fresh w → w.cls = c) : g.Fits c k where
  inputs := h.inputs_eq_nil hf.inputs
  registers r hr := by
    rcases h.mem_registers_cases hf.inputs hr with hr | ⟨w, hw, rfl⟩
    · exact hf.registers r hr
    · exact ⟨w, rfl, hclass w hw⟩
  reads d hd j hj := by
    rcases exists_left_of_forall₂ h.blocks hd with ⟨b, hb, hbd⟩
    cases hbd.spilledFrom_body hj with
    | kept hi => exact hf.reads b hb j hi
    | @changed i hi w _ => exact Nat.le_trans (readCount_readInstead i w) (hf.reads b hb i hi)
    | reload _ => exact Nat.zero_le k
    | save _ _ => exact hk
  defs d hd j hj := by
    rcases exists_left_of_forall₂ h.blocks hd with ⟨b, hb, hbd⟩
    cases hbd.spilledFrom_body hj with
    | kept hi => exact hf.defs b hb j hi
    | @changed i hi w _ => exact hf.defs b hb i hi
    | reload _ => exact Nat.le_refl 1
    | save _ _ => exact Nat.zero_le 1
  quiet := h.quiet hf.quiet
  run d hd := by
    rcases exists_left_of_forall₂ h.blocks hd with ⟨b, hb, hbd⟩
    rcases hbd.cut with ⟨_, _, _, hrun, _⟩
    exact Nat.le_trans (readCounts_le hrun) (hf.run b hb)

variable {supply : Supply} {s : Spill M} {m : Nat}

/-- A register that is reloaded for the first time is reloaded once. -/
theorem countP_writes_spill (hnum : f.Numbered supply m) (hspill : f.spill v supply = .ok s)
    (hm : m + s.reloads.length ≤ Supply.capacity) {w : VReg M}
    (hw : f.instructions.countP (·.writesV w) ≤ 1)
    (hfresh : w.id ∈ s.reloads → f.instructions.countP (·.writesV w) = 0) :
    s.func.instructions.countP (·.writesV w) ≤ 1 := by
  have hnew : (s.reloads.countP fun id => (reloadFrom s.slot ⟨id, v.cls⟩).writesV w) ≤
      s.reloads.count w.id := by
    refine List.countP_mono_left fun id _ hid => ?_
    have heq := mem_defs_reloadFrom.mp (Instr.writesV_iff.mp hid)
    rw [Register.virtual.injEq] at heq
    rw [heq]
    exact beq_self_eq_true id
  have hnodup : s.reloads.Nodup := by
    rw [hnum.reloads_eq_range hspill hm]
    exact List.nodup_range'
  rw [countP_spill hspill (fun _ _ => rfl) rfl]
  by_cases hmem : w.id ∈ s.reloads
  · rw [List.count_eq_one_of_mem hnodup hmem] at hnew
    have hzero := hfresh hmem
    omega
  · rw [List.count_eq_zero.mpr hmem] at hnew
    omega

/-- After a spill, the spilled register and the reloaded ones belong to the spill code. -/
theorem Tended.spill {Temp Spilled : VReg M → Prop} (hf : f.Fits c k)
    (h : f.Tended m Temp Spilled) (hnum : f.Numbered supply m) (hvmem : .virtual v ∈ f.registers)
    (hv : ¬ (Temp v ∨ Spilled v)) (hspill : f.spill v supply = .ok s)
    (hm : m + s.reloads.length ≤ Supply.capacity) :
    s.func.Tended (m + s.reloads.length)
      (fun u => Temp u ∨ (u.id ∈ s.reloads ∧ u.cls = v.cls)) fun u => Spilled u ∨ u = v := by
  have hspills := spillsTo_of_spill hspill (hnum.freshFor hm)
  have hids : ∀ id ∈ s.reloads, m ≤ id ∧ id < m + s.reloads.length := by
    intro id hid
    rw [hnum.reloads_eq_range hspill hm, List.mem_range'_1] at hid
    exact hid
  have hvid := hnum.ids v hvmem
  -- In the order of the fields: ids, what blocks need, what stands in them, and how often.
  refine ⟨fun u hu => ?_, fun u hu d hd => ?_, fun d hd => ?_, fun w hw => ?_⟩
  · rcases hu with (hu | hu) | (hu | rfl)
    · have := h.below u (Or.inl hu)
      omega
    · exact (hids _ hu.1).2
    · have := h.below u (Or.inr hu)
      omega
    · omega
  · rcases exists_left_of_forall₂ hspills.blocks hd with ⟨b, hb, hbd⟩
    rcases SpillsTo.kinds v (fun w => w.id ∈ s.reloads ∧ w.cls = v.cls) (.virtual u) with
      hnew | hold
    · exact hbd.not_exposes (hspills.stale_code hb) hnew
    · rw [hbd.exposes_iff hold]
      -- It is neither the spilled register nor a new one, so it was there before.
      refine h.unexposed u ?_ b hb
      rcases hu with (hu | hu) | (hu | rfl)
      · exact Or.inl hu
      · exact absurd rfl (hold.2 u hu)
      · exact Or.inr hu
      · exact absurd rfl hold.1
  · rcases exists_left_of_forall₂ hspills.blocks hd with ⟨b, hb, hbd⟩
    rcases hbd.cut with ⟨body, reloads, hbody, hrun, hcut⟩
    have hstale := hspills.stale_code hb
    rw [hcut]
    refine (h.tidy b hb).spill hrun hbody hv (fun hmem => ?_) (fun w hw hS => ?_)
      (fun i hi r hr q hq => hf.one_def hb hi hr hq)
      (fun i hi => hstale i (Block.mem_code_iff.mpr (Or.inl hi)))
      fun i hi => hstale i (Block.mem_code_iff.mpr (Or.inr hi))
    · have := hids _ hmem.1
      omega
    · have := h.below w (Or.inr hS)
      have := hids _ hw.1
      omega
  · -- The new ids are above all that the function mentions.
    have hunused : w.id ∈ s.reloads → f.instructions.countP (·.writesV w) = 0 := by
      intro hid
      rw [List.countP_eq_zero]
      intro i hi hdef
      rcases List.mem_flatMap.mp hi with ⟨b, hb, hi⟩
      have hreg := mem_registers_of_instr hb hi (Or.inl (Instr.writesV_iff.mp hdef))
      have := hnum.ids w hreg
      have := hids _ hid
      omega
    refine countP_writes_spill hnum hspill hm ?_ hunused
    rcases hw with hw | hw
    · exact h.once w hw
    · rw [hunused hw.1]
      exact Nat.zero_le 1

end Spill

/-- If at most one element has a property, there is one place for it. -/
theorem index_eq_of_countP {α : Type} {P : α → Bool} {l : List α} (h : l.countP P ≤ 1)
    {j j' : Nat} {a a' : α} (hj : l[j]? = some a) (ha : P a = true) (hj' : l[j']? = some a')
    (ha' : P a' = true) : j = j' := by
  induction l generalizing j j' with
  | nil => exact absurd hj (by simp)
  | cons x l ih =>
      have hlater : ∀ {j : Nat} {a : α}, l[j]? = some a → P a = true → 0 < l.countP P :=
        fun hj ha => List.countP_pos_iff.mpr ⟨_, List.mem_of_getElem? hj, ha⟩
      rw [List.countP_cons] at h
      cases j with
      | zero =>
          cases j' with
          | zero => rfl
          | succ j' =>
              obtain rfl : x = a := by simpa using hj
              have := hlater (by simpa using hj') ha'
              rw [if_pos ha] at h
              omega
      | succ j =>
          cases j' with
          | zero =>
              obtain rfl : x = a' := by simpa using hj'
              have := hlater (by simpa using hj) ha
              rw [if_pos ha'] at h
              omega
          | succ j' =>
              exact congrArg (· + 1) (ih (by omega) (by simpa using hj) (by simpa using hj'))

/-- An instruction of which there is one stands in one place. -/
theorem place_eq_of_countP {P : Instr M → Bool} (h : f.instructions.countP P ≤ 1) {n n' a a' : Nat}
    {b b' : Block M} {i i' : Instr M} (hb : f.blocks[n]? = some b) (hi : b.code[a]? = some i)
    (hP : P i = true) (hb' : f.blocks[n']? = some b') (hi' : b'.code[a']? = some i')
    (hP' : P i' = true) : n = n' ∧ a = a' := by
  -- First the block is found, by counting blocks, and then the place in it.
  have hblocks : f.blocks.countP (fun b => b.code.any P) ≤ f.instructions.countP P := by
    unfold instructions
    induction f.blocks with
    | nil => exact Nat.le_refl 0
    | cons b blocks ih =>
        rw [List.flatMap_cons, List.countP_append, List.countP_cons]
        by_cases hany : b.code.any P = true
        · have hpos : 0 < b.code.countP P := by
            rcases List.any_eq_true.mp hany with ⟨i, hi, hP⟩
            exact List.countP_pos_iff.mpr ⟨i, hi, hP⟩
          rw [if_pos hany]
          omega
        · rw [if_neg hany]
          omega
  have hany : ∀ {b : Block M} {a : Nat} {i : Instr M}, b.code[a]? = some i → P i = true →
      b.code.any P = true :=
    fun hi hP => List.any_eq_true.mpr ⟨_, List.mem_of_getElem? hi, hP⟩
  obtain rfl := index_eq_of_countP (Nat.le_trans hblocks h) hb (hany hi hP) hb' (hany hi' hP')
  rw [hb, Option.some.injEq] at hb'
  subst hb'
  have hcode : b.code.Sublist f.instructions :=
    List.sublist_flatten_of_mem (List.mem_map.mpr ⟨b, List.mem_of_getElem? hb, rfl⟩)
  exact ⟨rfl, index_eq_of_countP (Nat.le_trans hcode.countP_le h) hi hP hi' hP'⟩

/-- What is written in a block is written before the terminators. -/
theorem Fits.carries (hf : f.Fits c k) {b : Block M} (hb : b ∈ f.blocks) {r : Register M}
    {a e : Nat} (h : b.Carries r a e) :
    (∃ i, b.body[a]? = some i ∧ b.code[a]? = some i ∧ r ∈ i.defs) ∧
      (e = a ∨ ∃ j, e = a + 1 + j ∧ Sees r (b.body.drop (a + 1) ++ b.run) j) := by
  rcases h with ⟨⟨i, hi, hdef⟩, hstop⟩
  -- Terminators write nothing, so the write is not one of theirs.
  have hlt : a < b.body.length := by
    by_contra hge
    rw [← b.body_append_run, List.getElem?_append_right (by omega)] at hi
    rw [hf.quiet b hb i (List.mem_of_getElem? hi)] at hdef
    exact absurd hdef (by simp)
  have hbody := hi
  rw [← b.body_append_run, List.getElem?_append_left hlt] at hbody
  rw [← b.body_append_run, List.drop_append_of_le_length hlt] at hstop
  exact ⟨⟨i, hbody, hi, hdef⟩, hstop⟩

section Alive

variable {m : Nat} {Temp Spilled : VReg M → Prop} (hf : f.Fits c k)
  (h : f.Tended m Temp Spilled)
include hf h

/-- Two registers of spill code that are alive at once were reloaded for the same operands. -/
theorem Tended.awaits {b : Block M} (hb : b ∈ f.blocks) {u w : VReg M} (hu : Temp u ∨ Spilled u)
    (hw : Temp w ∨ Spilled w) (hne : u ≠ w) {a d : LiveRange}
    (hcu : b.Carries (.virtual u) a.start a.stop)
    (hcw : b.Carries (.virtual w) d.start d.stop)
    (hoverlap : a.overlaps d = true) :
    Temp u ∧ ∃ L, Awaits Temp b.run u (b.body.drop (a.start + 1)) L ∧ .virtual w ∈ L := by
  rcases hf.carries hb hcu with ⟨⟨i, hi, _, hdef⟩, hstop⟩
  rcases hf.carries hb hcw with ⟨⟨i', hi', _, hdef'⟩, hstop'⟩
  simp only [LiveRange.overlaps, Bool.and_eq_true, Bool.not_eq_true', Bool.or_eq_false_iff,
    Bool.and_eq_false_iff, decide_eq_false_iff_not] at hoverlap
  rcases Nat.lt_trichotomy a.start d.start with hlt | heq | hlt
  · -- The other register is written while this one is alive.
    rcases hstop with hstop | ⟨j, hstop, hsees⟩
    · omega
    · rcases (h.tidy b hb).meet hu hi hdef hi' hdef' hlt hsees (by omega) with
        ⟨hTu, _, L, hL, hLw⟩
      exact ⟨hTu, L, hL, hLw.mem⟩
  · -- One instruction does not write two registers.
    rw [← heq, hi, Option.some.injEq] at hi'
    subst hi'
    have hsame := hf.one_def hb (List.mem_of_getElem? hi) hdef hdef'
    exact absurd (Register.virtual.inj hsame) hne
  · rcases hstop' with hstop' | ⟨j, hstop', hsees⟩
    · omega
    · rcases (h.tidy b hb).meet hw hi' hdef' hi hdef hlt hsees (by omega) with
        ⟨_, hTu, L, hLw, hL⟩
      exact ⟨hTu, L, hL, hLw.mem⟩

/-- A register of spill code and all others that are alive beside it are among the operands
    of one instruction, or of the terminators of a block. -/
theorem Tended.exists_operands {l : Liveness M} (hl : f.liveness = .ok l) {u : VReg M}
    (hu : Temp u ∨ Spilled u) :
    ∃ L : List (Register M), L.toFinset.card ≤ k ∧ ∀ w, Temp w ∨ Spilled w → u ≠ w →
      ∀ a ∈ l.rangesOf (.virtual u), ∀ b ∈ l.rangesOf (.virtual w), a.overlaps b = true →
        .virtual u ∈ L ∧ .virtual w ∈ L := by
  -- Where a range of the register meets one of another, there are operands for both.
  have hmeet : ∀ w, Temp w ∨ Spilled w → u ≠ w → ∀ a ∈ l.rangesOf (.virtual u),
      ∀ b ∈ l.rangesOf (.virtual w), a.overlaps b = true →
      Temp u ∧ ∃ block i, f.blocks[a.block]? = some block ∧ block.code[a.start]? = some i ∧
        .virtual u ∈ i.defs ∧
        ∃ L, Awaits Temp block.run u (block.body.drop (a.start + 1)) L ∧ .virtual w ∈ L := by
    intro w hw hne a ha b hb hoverlap
    rcases carries_of_mem_rangesOf hl hf.inputs (h.unexposed u hu) ha with ⟨block, hblock, hcu⟩
    rcases carries_of_mem_rangesOf hl hf.inputs (h.unexposed w hw) hb with ⟨block', hblock', hcw⟩
    have hsame : a.block = b.block := by
      simp only [LiveRange.overlaps, Bool.and_eq_true, decide_eq_true_eq] at hoverlap
      exact hoverlap.1
    rw [← hsame, hblock, Option.some.injEq] at hblock'
    subst hblock'
    have hmem := List.mem_of_getElem? hblock
    rcases (hf.carries hmem hcu).1 with ⟨i, _, hi, hdef⟩
    have hawaits := h.awaits hf hmem hu hw hne hcu hcw hoverlap
    exact ⟨hawaits.1, block, i, hblock, hi, hdef, hawaits.2⟩
  by_cases hany : ∃ w, (Temp w ∨ Spilled w) ∧ u ≠ w ∧ ∃ a ∈ l.rangesOf (.virtual u),
      ∃ b ∈ l.rangesOf (.virtual w), a.overlaps b = true
  · rcases hany with ⟨w, hw, hne, a, ha, b, hb, hoverlap⟩
    rcases hmeet w hw hne a ha b hb hoverlap with
      ⟨hTu, block, i, hblock, hi, hdef, L, hL, _⟩
    have hmem := List.mem_of_getElem? hblock
    refine ⟨L, hL.card_le (fun j hj => hf.reads block hmem j (List.mem_of_mem_drop hj))
      (hf.run block hmem), fun w' hw' hne' a' ha' b' hb' hoverlap' => ⟨hL.mem, ?_⟩⟩
    -- The register is reloaded once, so every range of it starts at the same place.
    rcases hmeet w' hw' hne' a' ha' b' hb' hoverlap' with
      ⟨_, block', i', hblock', hi', hdef', L', hL', hw'L⟩
    rcases place_eq_of_countP (h.once u hTu) hblock hi (Instr.writesV_iff.mpr hdef) hblock' hi'
      (Instr.writesV_iff.mpr hdef') with ⟨hn, hstart⟩
    rw [← hn, hblock, Option.some.injEq] at hblock'
    subst hblock'
    rw [hstart] at hL
    rw [hL.unique hL']
    exact hw'L
  · refine ⟨[], by simp, fun w hw hne a ha b hb hoverlap => ?_⟩
    exact absurd ⟨w, hw, hne, a, ha, b, hb, hoverlap⟩ hany

end Alive

end Function

end RegisterColoring
