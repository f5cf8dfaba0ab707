import RegisterColoring.Proofs.InputsAsCopies
import RegisterColoring.Proofs.LoweredFlow
import RegisterColoring.Proofs.Placement
import RegisterColoring.Proofs.SpilledRuns

/-!
# Runs of Functions with Copies

With copies in place of inputs a function can be allocated: its instructions are
those of the function it comes from with copies and jumps beside them, and every
virtual register is written before it is read, on all walks.

Its runs need the arguments of a jump even if the jump is not reached. Virtual
arguments are written by then. Of physical ones only the analysis knows, which refuses
a block that reads a physical register and does not write it first, be it the block of
the jump or the one that stands on the edge.

## Theorems

* `Function.Stages.workable`: Copies in place of inputs leave a function to allocate.
* `Function.Stages.defines_of_argument`: Physical arguments are written in their block.
* `Function.Stages.returns`: Copies in place of inputs keep the returned value.
-/

namespace RegisterColoring

variable {M : Machine}

/-- A slot is named by the first of the leading operands. -/
theorem Instr.slot_eq_none {i : Instr M} (h : ∀ u ∈ i.leading, u.IsPlain) : i.slot? = none := by
  unfold Instr.slot?
  rw [i.uses_eq]
  cases hleading : i.leading with
  | nil =>
      cases i.branches with
      | nil => rfl
      | cons branch rest => rfl
  | cons u rest =>
      have hu := h u (by simp [hleading])
      cases u with
      | frame slot offset => exact absurd hu id
      | _ => rfl

theorem Instr.mem_uses_of_leading {i : Instr M} {u : Operand M} (h : u ∈ i.leading) :
    u ∈ i.uses := by
  rw [i.uses_eq]
  exact List.mem_append.mpr (Or.inl h)

namespace Function

variable {f : Function M} {staging : Staging M} {n : Nat}

namespace Stages

variable (h : f.Stages staging n)
include h

theorem regular (hf : f.Runnable) :
    ∀ e ∈ (f.withCopies staging).blocks, ∀ i ∈ e.code, i.Regular := by
  intro e he i hi
  rcases List.getElem?_of_mem he with ⟨k, hk⟩
  rcases h.mem_code hk hi with ⟨v, _, rfl⟩ | ⟨block, hb, hbody⟩ | ⟨_, _, _, _, _, _, p, _, rfl⟩ |
    ⟨hdefs, ⟨block, hblock, j, hj, hop, _, _⟩ | ⟨c, rfl⟩⟩
  · exact copyTo_regular _ _
  · exact hf.regular block (List.mem_of_getElem? hb) i (Block.mem_code_iff.mpr (Or.inl hbody))
  · exact copyTo_regular _ _
  · have hreg := hf.regular block hblock j (Block.mem_code_iff.mpr (Or.inr hj))
    exact hreg.congr hop (hdefs.trans (hf.defs_of_run hblock hj).symm)
  · exact .terminator .jmp rfl _

/-- Where no operand names a slot, copies in place of inputs name none. -/
theorem slot_eq_none (hplain : ∀ i ∈ f.instructions, ∀ u ∈ i.uses, u.IsPlain) :
    ∀ e ∈ (f.withCopies staging).blocks, ∀ i ∈ e.code, i.slot? = none := by
  intro e he i hi
  rcases List.getElem?_of_mem he with ⟨k, hk⟩
  rcases h.mem_code hk hi with ⟨v, _, rfl⟩ | ⟨block, hb, hbody⟩ |
    ⟨block, hblock, j, hj, branch, hbranch, p, hp, rfl⟩ |
    ⟨_, ⟨block, hblock, j, hj, _, hleading, _⟩ | ⟨c, rfl⟩⟩
  · rfl
  · refine Instr.slot_eq_none fun u hu => hplain i ?_ u (Instr.mem_uses_of_leading hu)
    exact mem_instructions (List.mem_of_getElem? hb) (Block.mem_code_iff.mpr (Or.inl hbody))
  · -- The copied argument is an operand of the jump.
    rcases Branch.mem_moves.mp hp with ⟨v, u, hzip, rfl⟩
    have huses := Lowerable.arg_mem_uses hbranch (List.of_mem_zip hzip).2
    have hu := hplain j (mem_instructions hblock (Block.mem_code_iff.mpr (Or.inr hj))) u huses
    cases u with
    | frame slot offset => exact absurd hu id
    | _ => rfl
  · refine Instr.slot_eq_none fun u hu => ?_
    rw [hleading] at hu
    exact hplain j (mem_instructions hblock (Block.mem_code_iff.mpr (Or.inr hj))) u
      (Instr.mem_uses_of_leading hu)
  · rfl

/-- The ids of the result are old ones and those of staging registers. -/
theorem idsBelow {m : Nat} (hold : n ≤ m)
    (hstaged : ∀ c, ∀ v ∈ f.inputsOf c, (stageOf staging v).id < m) :
    (f.withCopies staging).IdsBelow m := by
  intro u hu
  rcases mem_registers.mp hu with ⟨e, he, ⟨v, hv, _⟩ | ⟨i, hi, hmem⟩⟩
  · exact absurd hv (by simp [inputs_withCopies e he])
  · rcases List.getElem?_of_mem he with ⟨k, hk⟩
    have hcases : (Register.virtual u).Below n ∨
        ∃ c, ∃ v ∈ f.inputsOf c, Register.virtual u = .virtual (stageOf staging v) := by
      rcases hmem with hdef | hread
      · exact h.defs_cases hk hi hdef
      · exact (h.reads_cases hk hi hread).imp_right fun hstage => ⟨k, hstage⟩
    rcases hcases with hbelow | ⟨c, v, hv, heq⟩
    · exact Nat.lt_of_lt_of_le hbelow hold
    · rw [Register.virtual.inj heq]
      exact hstaged c v hv

omit h in
/-- No block takes inputs, so a branch without arguments fits. -/
theorem fits_bare {c : Nat} {target : Block M}
    (htarget : (f.withCopies staging).blocks[c]? = some target) :
    Branch.Fits (f.withCopies staging) ⟨c, []⟩ := by
  refine ⟨target, htarget, ?_⟩
  rw [inputs_withCopies target (List.mem_of_getElem? htarget)]
  rfl

theorem fits_target {block : Block M} (hblock : block ∈ f.blocks) {i : Instr M}
    (hi : i ∈ block.run) {branch : Branch M} (hbranch : branch ∈ i.branches) :
    Branch.Fits (f.withCopies staging) ⟨branch.target, []⟩ := by
  rcases h.single.fits_run hblock hi hbranch with ⟨target, htarget, _⟩
  rcases Lowerable.exists_lowered staging htarget with ⟨c, hc, _⟩
  exact fits_bare hc

/-- The jumps of the result pass no arguments, and nothing takes any. -/
theorem fits : ∀ e ∈ (f.withCopies staging).blocks, ∀ i ∈ e.run, ∀ branch ∈ i.branches,
    branch.Fits (f.withCopies staging) := by
  intro e he j hj other hother
  rcases List.getElem?_of_mem he with ⟨k, hk⟩
  rcases withCopies_cases hk with
    ⟨block, hb, hlowers⟩ | ⟨_, block, hblock, i, hi, branch, hbranch, rfl⟩
  · have hmem := List.mem_of_getElem? hb
    have hrun := (h.single.body_run h.apart hb hlowers).2.1
    rcases exists_left_of_forall₂ hrun hj with ⟨i, hi, hrerouted⟩
    rcases exists_left_of_forall₂ hrerouted.branches hother with ⟨branch, hbranch, hroute⟩
    cases hroute with
    | plain hinputs =>
        -- A branch that keeps its arguments has none.
        rcases h.single.fits_run hmem hi hbranch with ⟨target, htarget, hlen⟩
        have hnil : other.args = [] := by
          rw [← inputsOf_eq htarget, hinputs] at hlen
          exact List.length_eq_zero_iff.mp hlen
        have hfits := h.fits_target hmem hi hbranch
        rw [← hnil] at hfits
        exact hfits
    | ahead _ _ => exact h.fits_target hmem hi hbranch
    | detour _ _ k' hk' => exact fits_bare (edge_eq_some_iff.mp hk').2
  · rw [(h.apart.edge_body_run branch).2.1, List.mem_singleton] at hj
    subst hj
    have hsole : other ∈ [⟨branch.target, []⟩] := hother
    rw [List.mem_singleton.mp hsole]
    exact h.fits_target hblock hi hbranch

theorem runnable (hf : f.Runnable) : (f.withCopies staging).Runnable where
  terminated := h.tractable.terminated
  regular := h.regular hf
  fits := h.fits

omit h in
theorem size_pos {k : Nat} {e : Block M} (he : (f.withCopies staging).blocks[k]? = some e) :
    0 < f.size := by
  rcases withCopies_cases he with ⟨block, hb, _⟩ | ⟨_, block, hblock, _⟩
  · exact Nat.lt_of_le_of_lt (Nat.zero_le k) (List.getElem?_eq_some_iff.mp hb).1
  · exact List.length_pos_of_mem hblock

/-- Copies in place of inputs come after writes, as inputs do. -/
theorem strict (hone : f.OneClass) (hentry : f.inputsOf 0 = []) (v : VReg M) :
    (f.withCopies staging).Strict (.virtual v) := by
  refine Strict.of_exposes fun k e he hexposes path hwalk => ?_
  rcases hexposes.2.exists_read with ⟨i, hi, hread⟩
  rcases h.reads_cases he hi hread with hbelow | ⟨w, hw, heq⟩
  · exact h.written_before (size_pos he) hbelow (h.single.strict hone v) hwalk he hexposes
  · cases hwalk with
    | start => exact absurd hw (by simp [hentry])
    | step hprev hk =>
        rw [heq]
        exact ⟨_, List.mem_cons_self, h.staged_before hk hw⟩

/-- Copies in place of inputs leave a function to allocate. -/
theorem workable (hf : f.Runnable) (hone : f.OneClass) (hentry : f.inputsOf 0 = []) :
    (f.withCopies staging).Workable where
  tractable := h.tractable
  runnable := h.runnable hf
  strict := h.strict hone hentry

/-- A block on an edge writes staging registers only. -/
theorem not_defines_edge (branch : Branch M) (p : M.Reg) :
    ¬ (branch.edge f staging).Defines (.physical p) := by
  rintro (⟨v, hv, _⟩ | ⟨j, hj, hdef⟩)
  · exact absurd hv (by simp [Branch.edge])
  · rcases Block.mem_code_iff.mp hj with hj | hj
    · rw [(h.apart.edge_body_run branch).1, List.mem_map] at hj
      rcases hj with ⟨move, _, rfl⟩
      exact absurd (mem_defs_copyTo.mp hdef) (by simp)
    · rw [(h.apart.edge_body_run branch).2.1, List.mem_singleton] at hj
      subst hj
      exact absurd hdef (by simp [jumpTo])

omit h in
/-- An argument has an input to move to. -/
theorem exists_move_of_arg (staging : Staging M) {branch : Branch M} (hfits : branch.Fits f)
    {u : Operand M} (hu : u ∈ branch.args) : ∃ w, (w, u) ∈ branch.moves f staging := by
  rcases hfits with ⟨target, htarget, hlen⟩
  rw [← inputsOf_eq htarget] at hlen
  rcases List.getElem?_of_mem hu with ⟨m, hm⟩
  have hlt : m < (f.inputsOf branch.target).length := by
    rw [← hlen]
    exact (List.getElem?_eq_some_iff.mp hm).1
  refine ⟨_, Branch.mem_moves.mpr ⟨(f.inputsOf branch.target)[m], u, ?_, rfl⟩⟩
  refine List.mem_of_getElem? (i := m) ?_
  rw [List.getElem?_zip_eq_some]
  exact ⟨List.getElem?_eq_getElem hlt, hm⟩

/-- An argument is copied, in a block that writes no other physical registers than the
    block of the jump. -/
theorem exists_copy {block : Block M} (hblock : block ∈ f.blocks) {i : Instr M}
    (hi : i ∈ block.run) {branch : Branch M} (hbranch : branch ∈ i.branches) {u : Operand M}
    (hu : u ∈ branch.args) :
    ∃ e ∈ (f.withCopies staging).blocks, (∃ w, copyTo w u ∈ e.code) ∧
      ∀ p, e.Defines (.physical p) → block.Defines (.physical p) := by
  rcases exists_move_of_arg staging (h.single.fits_run hblock hi hbranch) hu with ⟨w, hmove⟩
  rcases List.getElem?_of_mem hblock with ⟨b, hb⟩
  rcases withCopies_of_block staging hb with ⟨c, hc, hlowers⟩
  rcases h.single.body_run h.apart hb hlowers with ⟨hbody, hrun, _⟩
  rcases exists_right_of_forall₂ hrun hi with ⟨j, _, hrerouted⟩
  rcases exists_right_of_forall₂ hrerouted.branches hbranch with ⟨other, _, hroute⟩
  cases hroute with
  | plain hinputs => exact absurd hmove (by simp [Branch.moves, hinputs])
  | ahead hinputs hcontested =>
      -- The copy stands in the block of the jump.
      refine ⟨c, List.mem_of_getElem? hc, ⟨w, Block.mem_code_iff.mpr (Or.inl ?_)⟩, fun p hdef => ?_⟩
      · rw [hbody, List.mem_append, h.mem_ahead]
        refine Or.inr ⟨i, hi, branch, hbranch, ?_, _, hmove, rfl⟩
        simp [Branch.isAhead, hinputs, hcontested]
      · have hbelow : (Register.physical p : Register M).Below n := trivial
        exact (h.defines_block hb hlowers hbelow).mp hdef
  | detour _ _ k hk =>
      -- The copy stands on the edge.
      refine ⟨_, List.mem_of_getElem? (edge_eq_some_iff.mp hk).2,
        ⟨w, Block.mem_code_iff.mpr (Or.inl ?_)⟩, fun p hdef => ?_⟩
      · rw [(h.apart.edge_body_run branch).1]
        exact List.mem_map.mpr ⟨_, hmove, rfl⟩
      · exact absurd hdef (h.not_defines_edge branch p)

/-- The analysis accepts physical arguments only if their blocks write them. -/
theorem defines_of_argument (hM : M.Disjoint) {l : Liveness M}
    (hl : (f.withCopies staging).liveness = .ok l) {block : Block M} (hblock : block ∈ f.blocks)
    {i : Instr M} (hi : i ∈ block.run) {branch : Branch M} (hbranch : branch ∈ i.branches)
    {p : M.Reg} (hp : .reg (.physical p) ∈ branch.args) : block.Defines (.physical p) := by
  rcases h.exists_copy hblock hi hbranch hp with ⟨e, he, ⟨w, hcopy⟩, hdefines⟩
  refine hdefines p (Classical.byContradiction fun hnot => ?_)
  -- Otherwise the copy would read a value from before its block.
  rcases List.getElem?_of_mem he with ⟨k, hk⟩
  refine not_exposes_physical hl inputs_withCopies hM hk p ⟨fun v _ => by simp, ?_⟩
  refine needs_of_not_written (fun j hj hdef => hnot (Or.inr ⟨j, hj, hdef⟩)) hcopy ?_
  exact mem_reads_copyTo.mpr rfl

/-- Copies in place of inputs keep the returned value, if the result can be analysed or
    there is nothing to allocate. -/
theorem returns (hf : f.Runnable) (hone : f.OneClass) (hentry : f.inputsOf 0 = [])
    (hplain : ∀ i ∈ f.instructions, ∀ u ∈ i.uses, u.IsPlain) (hM : M.Disjoint)
    (hok : (f.withCopies staging).hasVirtual = true →
      ∃ l, (f.withCopies staging).liveness = .ok l) {x : Int64} (hx : f.Returns x) :
    (f.withCopies staging).Returns x := by
  have hargs : f.ArgsReady := by
    refine h.single.argsReady hone hplain fun block hblock i hi branch hbranch p hp => ?_
    -- The copy of an argument writes a virtual register.
    have hvirtual : (f.withCopies staging).hasVirtual = true := by
      rcases h.exists_copy hblock hi hbranch hp with ⟨e, he, ⟨w, hcopy⟩, _⟩
      refine List.any_eq_true.mpr ⟨.virtual w, ?_, rfl⟩
      exact mem_registers_of_instr he hcopy (Or.inl (mem_defs_copyTo.mpr rfl))
    rcases hok hvirtual with ⟨l, hl⟩
    exact h.defines_of_argument hM hl hblock hi hbranch hp
  have hlowerable : f.Lowerable staging n :=
    ⟨hf, h.single.inputsApart, h.below, h.apart, hargs⟩
  exact (hlowerable.returns_iff hentry).mp hx

end Stages

end Function

end RegisterColoring
