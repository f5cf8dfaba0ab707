import RegisterColoring.Proofs.LoweredShape
import RegisterColoring.Proofs.Ranges

/-!
# Control Flow After Copying

Replacing inputs changes the graph in one way: some branches go through an edge, a
block of their own with one way out. A walk through the result therefore follows a
walk through the original, which is what is left of it without the edges.

The registers of the result are of two kinds. The old ones have ids below a bound;
they are written and read where they were, except that an argument is now read by a
copy, so what was known about walks to their reads still holds. The others are
staging registers. All blocks that can precede the owner of an input write its
staging register, and only the owner reads it. So it is live into one block and
live through none.

## Main definitions

* `Function.Stages`: What the copies rely on.

## Theorems

* `Function.Stages.walk`: Walks through the result follow walks through the original.
* `Function.Stages.defines_iff`, `Function.Stages.exposes_block`: Old registers occur where
  they did.
* `Function.Stages.mem_code`: Where an instruction of the result comes from.
* `Function.Stages.settled`: The written registers of the result are settled.
* `Function.Stages.tractable`: The analysis of the result is exact.
-/

namespace RegisterColoring

variable {M : Machine}

theorem mem_reads_copyTo {v : VReg M} {u : Operand M} {r : Register M} :
    r ∈ (copyTo v u).reads ↔ u = .reg r := by
  rw [Instr.mem_reads, copyTo, List.mem_singleton, eq_comm]

theorem mem_defs_copyTo {v : VReg M} {u : Operand M} {r : Register M} :
    r ∈ (copyTo v u).defs ↔ r = .virtual v := by
  rw [copyTo, List.mem_singleton]

namespace Function

/-- What the copies rely on: single assignment form, terminators that write nothing,
    and staging registers apart from the registers of the function. -/
structure Stages (f : Function M) (staging : Staging M) (n : Nat) : Prop where
  single : f.SingleAssignment
  quiet : ∀ b ∈ f.blocks, ∀ i ∈ b.run, i.defs = []
  below : f.IdsBelow n
  apart : staging.Apart f n

variable {f : Function M} {staging : Staging M} {n : Nat}

namespace Stages

variable (h : f.Stages staging n)

include h

/-- What a copy for a branch reads and writes. -/
theorem copy_of_move {block : Block M} (hblock : block ∈ f.blocks) {j : Instr M}
    (hj : j ∈ block.run) {branch : Branch M} (hbranch : branch ∈ j.branches)
    {p : VReg M × Operand M} (hp : p ∈ branch.moves f staging) :
    (∀ r ∈ (copyOf p).reads, r ∈ j.reads ∧ r.Below n) ∧
      ∃ v ∈ f.inputsOf branch.target, p.1 = stageOf staging v ∧ ∀ r ∈ (copyOf p).defs,
        r = .virtual (stageOf staging v) ∧ ¬ r.Below n := by
  rcases Branch.mem_moves.mp hp with ⟨v, u, hzip, rfl⟩
  have hv := (List.of_mem_zip hzip).1
  constructor
  · intro r hr
    have hu : u = .reg r := mem_reads_copyTo.mp hr
    -- What is copied is an argument of the branch, so the jump reads it.
    have hread : r ∈ j.reads :=
      Instr.mem_reads_iff.mpr (Or.inr ⟨branch, hbranch, hu ▸ (List.of_mem_zip hzip).2⟩)
    refine ⟨hread, h.below.below ?_⟩
    exact mem_registers_of_instr hblock (Block.mem_code_iff.mpr (Or.inr hj)) (Or.inr hread)
  · refine ⟨v, hv, rfl, fun r hr => ?_⟩
    obtain rfl := mem_defs_copyTo.mp hr
    exact ⟨rfl, h.apart.not_below hv⟩

/-- What the copy of an input reads and writes. -/
theorem copy_of_input {b : Nat} {v : VReg M} (hv : v ∈ f.inputsOf b) :
    (∀ r ∈ (copyTo v (.ofVReg (stageOf staging v))).reads,
        r = .virtual (stageOf staging v) ∧ ¬ r.Below n) ∧
      ∀ r ∈ (copyTo v (.ofVReg (stageOf staging v))).defs, r = .virtual v ∧ r.Below n := by
  constructor
  · intro r hr
    obtain rfl : Register.virtual (stageOf staging v) = r :=
      Operand.reg.inj (mem_reads_copyTo.mp hr)
    exact ⟨rfl, h.apart.not_below hv⟩
  · intro r hr
    obtain rfl := mem_defs_copyTo.mp hr
    rcases mem_inputsOf hv with ⟨block, hblock, hin⟩
    exact ⟨rfl, h.below.below (mem_registers_of_input (List.mem_of_getElem? hblock) hin)⟩

section Blocks

variable {b : Nat} {block c : Block M} (hb : f.blocks[b]? = some block)
  (hc : block.LowersTo f staging (f.edge? staging) c)

include hb hc

omit hc in
/-- The first part of the code fetches the inputs. -/
theorem mem_fetch {i : Instr M} :
    i ∈ fetchCopies staging block.inputs ↔
      ∃ v ∈ f.inputsOf b, i = copyTo v (.ofVReg (stageOf staging v)) := by
  rw [← inputsOf_eq hb, h.apart.fetchCopies_eq, List.map_map, List.mem_map]
  exact exists_congr fun v => and_congr_right fun _ => eq_comm

omit hb hc in
/-- The copies ahead of the terminators stage arguments. -/
theorem mem_ahead {i : Instr M} :
    i ∈ copiesAhead f staging block.contests (block.run.flatMap Instr.branches) ↔
      ∃ j ∈ block.run, ∃ branch ∈ j.branches, branch.isAhead f block.contests = true ∧
        ∃ p ∈ branch.moves f staging, i = copyOf p := by
  rw [h.apart.copiesAhead_eq]
  simp only [List.mem_map, List.mem_flatMap, List.mem_filter]
  constructor
  · rintro ⟨p, ⟨branch, ⟨⟨j, hj, hbranch⟩, hahead⟩, hp⟩, rfl⟩
    exact ⟨j, hj, branch, hbranch, hahead, p, hp, rfl⟩
  · rintro ⟨j, hj, branch, hbranch, hahead, p, hp, rfl⟩
    exact ⟨p, ⟨branch, ⟨⟨j, hj, hbranch⟩, hahead⟩, hp⟩, rfl⟩

/-- The terminators keep reading registers they read before, and write none. -/
theorem run_of_mem {j : Instr M} (hj : j ∈ c.run) :
    j.defs = [] ∧ ∃ i ∈ block.run, i.Rerouted f staging block.contests (f.edge? staging) j ∧
      ∀ r ∈ j.reads, r ∈ i.reads := by
  rcases exists_left_of_forall₂ (h.single.body_run h.apart hb hc).2.1 hj with ⟨i, hi, hij⟩
  refine ⟨hij.defs.trans (h.quiet block (List.mem_of_getElem? hb) i hi), i, hi, hij, ?_⟩
  intro r hr
  rcases Instr.mem_reads_iff.mp hr with hlead | ⟨other, hother, harg⟩
  · exact Instr.mem_reads_iff.mpr (Or.inl (hij.leading ▸ hlead))
  · rcases exists_left_of_forall₂ hij.branches hother with ⟨branch, hbranch, hroute⟩
    cases hroute with
    | plain _ => exact Instr.mem_reads_iff.mpr (Or.inr ⟨_, hbranch, harg⟩)
    | ahead _ _ => exact absurd harg (by simp)
    | detour _ _ k _ => exact absurd harg (by simp)

/-- An old register is written in the block where it was. -/
theorem defines_block {r : Register M} (hr : r.Below n) : c.Defines r ↔ block.Defines r := by
  have hblock := List.mem_of_getElem? hb
  have hcode := (h.single.body_run h.apart hb hc).1
  constructor
  · rintro (⟨v, hv, _⟩ | ⟨i, hi, hdef⟩)
    · rw [hc.inputs] at hv
      exact absurd hv (by simp)
    · rcases Block.mem_code_iff.mp hi with hi | hi
      · rw [hcode, List.append_assoc, List.mem_append, List.mem_append, h.mem_fetch hb,
          h.mem_ahead] at hi
        -- A fetched input, an instruction of the body, or a copy to a staging register.
        rcases hi with ⟨v, hv, rfl⟩ | hi | ⟨j, hj, branch, hbranch, _, p, hp, rfl⟩
        · rw [inputsOf_eq hb] at hv
          exact Or.inl ⟨v, hv, mem_defs_copyTo.mp hdef⟩
        · exact Or.inr ⟨i, Block.mem_code_iff.mpr (Or.inl hi), hdef⟩
        · rcases (h.copy_of_move hblock hj hbranch hp).2 with ⟨v, _, _, hdefs⟩
          exact absurd hr (hdefs r hdef).2
      · rw [(h.run_of_mem hb hc hi).1] at hdef
        exact absurd hdef (by simp)
  · rintro (⟨v, hv, rfl⟩ | ⟨i, hi, hdef⟩)
    · -- An input is written by the copy that fetches it.
      refine Or.inr ⟨copyTo v (.ofVReg (stageOf staging v)), Block.mem_code_iff.mpr (Or.inl ?_),
        mem_defs_copyTo.mpr rfl⟩
      rw [hcode, List.append_assoc, List.mem_append, h.mem_fetch hb, inputsOf_eq hb]
      exact Or.inl ⟨v, hv, rfl⟩
    · rcases Block.mem_code_iff.mp hi with hi | hi
      · refine Or.inr ⟨i, Block.mem_code_iff.mpr (Or.inl ?_), hdef⟩
        rw [hcode]
        simp [hi]
      · rw [h.quiet block hblock i hi] at hdef
        exact absurd hdef (by simp)

/-- If the block needs an old register, it did so before. -/
theorem exposes_block {r : Register M} (hr : r.Below n) (hexposes : c.Exposes r) :
    block.Exposes r := by
  have hblock := List.mem_of_getElem? hb
  -- A terminator that reads the register makes the old run need it.
  have hrun : ∀ j ∈ block.run, r ∈ j.reads → Needs r block.run := fun j hj hread =>
    needs_of_not_written (fun k hk => by simp [h.quiet block hblock k hk]) hj hread
  have hneeds := hexposes.2
  rw [← Block.body_append_run, (h.single.body_run h.apart hb hc).1, List.append_assoc,
    List.append_assoc, needs_append] at hneeds
  rcases hneeds with hfetch | ⟨hinputs, hneeds⟩
  · -- The fetching copies read staging registers.
    rcases hfetch.exists_read with ⟨i, hi, hread⟩
    rcases (h.mem_fetch hb).mp hi with ⟨v, hv, rfl⟩
    exact absurd hr ((h.copy_of_input hv).1 r hread).2
  · refine ⟨fun v hv hrv => ?_, ?_⟩
    · refine hinputs _ ((h.mem_fetch hb).mpr ⟨v, ?_, rfl⟩) (mem_defs_copyTo.mpr hrv)
      rw [inputsOf_eq hb]
      exact hv
    · rw [← Block.body_append_run, needs_append]
      rcases needs_append.mp hneeds with hbody | ⟨hdefs, hneeds⟩
      · exact Or.inl hbody
      · refine Or.inr ⟨hdefs, ?_⟩
        rcases needs_append.mp hneeds with hahead | ⟨_, hneeds⟩
        · -- What a copy ahead reads, the terminator of its branch read before.
          rcases hahead.exists_read with ⟨i, hi, hread⟩
          rcases h.mem_ahead.mp hi with ⟨j, hj, branch, hbranch, _, p, hp, rfl⟩
          exact hrun j hj ((h.copy_of_move hblock hj hbranch hp).1 r hread).1
        · rcases hneeds.exists_read with ⟨i, hi, hread⟩
          rcases (h.run_of_mem hb hc hi).2 with ⟨j, hj, _, hreads⟩
          exact hrun j hj (hreads r hread)

end Blocks

theorem mem_edge_code {branch : Branch M} {i : Instr M} :
    i ∈ (branch.edge f staging).code ↔
      (∃ p ∈ branch.moves f staging, i = copyOf p) ∨ i = jumpTo branch.target := by
  rw [Block.mem_code_iff, (h.apart.edge_body_run branch).1, (h.apart.edge_body_run branch).2.1,
    List.mem_singleton, List.mem_map]
  simp only [eq_comm]

omit h in
/-- A branch stages all inputs of its target. -/
theorem exists_move {branch : Branch M} (hfits : branch.Fits f) {v : VReg M}
    (hv : v ∈ f.inputsOf branch.target) : ∃ u, (stageOf staging v, u) ∈ branch.moves f staging := by
  rcases hfits with ⟨target, htarget, hlen⟩
  rw [inputsOf_eq htarget] at hv
  rcases List.getElem?_of_mem hv with ⟨k, hk⟩
  have hlt : k < branch.args.length := hlen ▸ (List.getElem?_eq_some_iff.mp hk).1
  refine ⟨branch.args[k], Branch.mem_moves.mpr ⟨v, _, ?_, rfl⟩⟩
  rw [inputsOf_eq htarget]
  refine List.mem_of_getElem? (i := k) ?_
  rw [List.getElem?_zip_eq_some]
  exact ⟨hk, List.getElem?_eq_getElem hlt⟩

/-- From a block, control goes on as before or into the edge of a branch. In the
    first case the block has staged the inputs of its successor. -/
theorem next_of_block {b c : Nat} (hb : b < f.size) (hc : c ∈ (f.withCopies staging).next b) :
    (c ∈ f.next b ∧ ∀ v ∈ f.inputsOf c,
        (f.withCopies staging).Defines b (.virtual (stageOf staging v))) ∨
      (f.size ≤ c ∧ ∃ block, f.blocks[b]? = some block ∧ ∃ i ∈ block.run, ∃ branch ∈ i.branches,
        (f.withCopies staging).blocks[c]? = some (branch.edge f staging)) := by
  have hblock := List.getElem?_eq_getElem hb
  have hmem := List.mem_of_getElem? hblock
  rcases withCopies_of_block staging hblock with ⟨e, he, hlowers⟩
  rcases mem_next.mp hc with ⟨e', he', ⟨j, hj, href⟩, _⟩
  obtain rfl := Option.some.inj (he.symm.trans he')
  rcases (h.run_of_mem hblock hlowers hj).2 with ⟨i, hi, hij, _⟩
  rw [Instr.references_eq, List.mem_map] at href
  rcases href with ⟨other, hother, rfl⟩
  rcases exists_left_of_forall₂ hij.branches hother with ⟨branch, hbranch, hroute⟩
  have hfits := h.single.fits_run hmem hi hbranch
  have hnext : branch.target ∈ f.next b := by
    rcases hfits with ⟨target, htarget, _⟩
    exact mem_next_of_enter hblock hi hbranch htarget
  cases hroute with
  | plain hin =>
      refine Or.inl ⟨hnext, fun v hv => ?_⟩
      rw [hin] at hv
      exact absurd hv (by simp)
  | ahead hin hcontested =>
      -- The copies for this branch stand before the run.
      refine Or.inl ⟨hnext, fun v hv => ?_⟩
      rcases exists_move hfits hv with ⟨u, hu⟩
      refine ⟨e, he, Or.inr ⟨copyTo (stageOf staging v) u, Block.mem_code_iff.mpr (Or.inl ?_),
        mem_defs_copyTo.mpr rfl⟩⟩
      rw [(h.single.body_run h.apart hblock hlowers).1, List.mem_append, h.mem_ahead]
      refine Or.inr ⟨i, hi, branch, hbranch, ?_, _, hu, rfl⟩
      simp [Branch.isAhead, hin, hcontested]
  | detour hin hcontested k hk =>
      have hk' := edge_eq_some_iff.mp hk
      exact Or.inr ⟨hk'.1, _, hblock, i, hi, branch, hbranch, hk'.2⟩

/-- From an edge, control goes on to the target of its branch, whose inputs the edge
    has staged. -/
theorem next_of_edge {k c : Nat} {block : Block M} (hblock : block ∈ f.blocks) {i : Instr M}
    (hi : i ∈ block.run) {branch : Branch M} (hbranch : branch ∈ i.branches)
    (hk : (f.withCopies staging).blocks[k]? = some (branch.edge f staging))
    (hc : c ∈ (f.withCopies staging).next k) :
    c = branch.target ∧ ∀ v ∈ f.inputsOf c,
      (f.withCopies staging).Defines k (.virtual (stageOf staging v)) := by
  rcases mem_next.mp hc with ⟨e, he, ⟨j, hj, href⟩, _⟩
  obtain rfl := Option.some.inj (hk.symm.trans he)
  have hedge := h.apart.edge_body_run branch
  rw [hedge.2.1, List.mem_singleton] at hj
  subst hj
  have htarget : c = branch.target := by simpa [Instr.references, jumpTo, Operand.block?] using href
  refine ⟨htarget, fun v hv => ?_⟩
  rw [htarget] at hv
  -- The copies on the edge stage all inputs of the target.
  rcases exists_move (h.single.fits_run hblock hi hbranch) hv with ⟨u, hu⟩
  refine ⟨_, hk, Or.inr ⟨copyTo (stageOf staging v) u, Block.mem_code_iff.mpr (Or.inl ?_),
    mem_defs_copyTo.mpr rfl⟩⟩
  rw [hedge.1]
  exact List.mem_map_of_mem (f := copyOf) hu

/-- The walk that is left of a walk through the result without its edges. At an edge,
    the walk has just left the block of the branch. -/
theorem walk (hf : 0 < f.size) {path : List Nat} {c : Nat}
    (hwalk : Walk (f.withCopies staging).next path c) :
    (c < f.size → Walk f.next (path.filter (· < f.size)) c) ∧
      (f.size ≤ c → ∃ b rest block, path = b :: rest ∧ b < f.size ∧
        Walk f.next (rest.filter (· < f.size)) b ∧ f.blocks[b]? = some block ∧
          ∃ i ∈ block.run, ∃ branch ∈ i.branches,
            (f.withCopies staging).blocks[c]? = some (branch.edge f staging)) := by
  induction hwalk with
  | start => exact ⟨fun _ => .start, fun hle => absurd hf (by omega)⟩
  | @step path b c hwalk hedge ih =>
      by_cases hb : b < f.size
      · have hstay := ih.1 hb
        rcases h.next_of_block hb hedge with ⟨hnext, _⟩ | ⟨hle, block, hblock, hbranch⟩
        · have hc := lt_size_of_mem_next hnext
          refine ⟨fun _ => ?_, fun hle => absurd hc (by omega)⟩
          rw [List.filter_cons_of_pos (by simpa using hb)]
          exact hstay.step hnext
        · exact ⟨fun hlt => absurd hlt (by omega),
            fun _ => ⟨b, path, block, rfl, hb, hstay, hblock, hbranch⟩⟩
      · -- The step leaves an edge, so the walk is one step from the block before it.
        rcases ih.2 (by omega) with ⟨d, rest, block, rfl, hd, hstay, hblock, i, hi, branch, hbranch,
          hk⟩
        have htarget := (h.next_of_edge (List.mem_of_getElem? hblock) hi hbranch hk hedge).1
        subst htarget
        rcases h.single.fits_run (List.mem_of_getElem? hblock) hi hbranch with ⟨target, htarget, _⟩
        have hnext := mem_next_of_enter hblock hi hbranch htarget
        have hc := lt_size_of_mem_next hnext
        refine ⟨fun _ => ?_, fun hle => absurd hc (by omega)⟩
        rw [List.filter_cons_of_neg (by simpa using hb),
          List.filter_cons_of_pos (by simpa using hd)]
        exact hstay.step hnext

/-- An old register is written where it was. -/
theorem defines_iff {k : Nat} {r : Register M} (hr : r.Below n) :
    (f.withCopies staging).Defines k r ↔ f.Defines k r := by
  constructor
  · rintro ⟨e, he, hdef⟩
    rcases withCopies_cases he with
      ⟨block, hblock, hlowers⟩ | ⟨_, block, hblock, i, hi, branch, hbranch, rfl⟩
    · exact ⟨block, hblock, (h.defines_block hblock hlowers hr).mp hdef⟩
    · -- The copies of an edge write staging registers.
      rcases hdef with ⟨v, hv, _⟩ | ⟨j, hj, hdef⟩
      · exact absurd hv (by simp [Branch.edge])
      · rcases h.mem_edge_code.mp hj with ⟨p, hp, rfl⟩ | rfl
        · rcases (h.copy_of_move hblock hi hbranch hp).2 with ⟨v, _, _, hdefs⟩
          exact absurd hr (hdefs r hdef).2
        · exact absurd hdef (by simp [jumpTo])
  · rintro ⟨block, hblock, hdef⟩
    rcases withCopies_of_block staging hblock with ⟨e, he, hlowers⟩
    exact ⟨e, he, (h.defines_block hblock hlowers hr).mpr hdef⟩

/-- Where an instruction of the result comes from. -/
theorem mem_code {k : Nat} {e : Block M} (he : (f.withCopies staging).blocks[k]? = some e)
    {i : Instr M} (hi : i ∈ e.code) :
    (∃ v ∈ f.inputsOf k, i = copyTo v (.ofVReg (stageOf staging v))) ∨
      (∃ block, f.blocks[k]? = some block ∧ i ∈ block.body) ∨
      (∃ block ∈ f.blocks, ∃ j ∈ block.run, ∃ branch ∈ j.branches,
        ∃ p ∈ branch.moves f staging, i = copyOf p) ∨
      (i.defs = [] ∧ ((∃ block ∈ f.blocks, ∃ j ∈ block.run, i.op = j.op ∧ i.leading = j.leading ∧
        ∀ r ∈ i.reads, r ∈ j.reads) ∨ ∃ c, i = jumpTo c)) := by
  rcases withCopies_cases he with
    ⟨block, hblock, hlowers⟩ | ⟨_, block, hblock, j, hj, branch, hbranch, rfl⟩
  · have hmem := List.mem_of_getElem? hblock
    rcases Block.mem_code_iff.mp hi with hi | hi
    · rw [(h.single.body_run h.apart hblock hlowers).1, List.append_assoc, List.mem_append,
        List.mem_append, h.mem_fetch hblock, h.mem_ahead] at hi
      -- The three parts of the body.
      rcases hi with hfetch | hbody | ⟨j, hj, branch, hbranch, _, hcopy⟩
      · exact Or.inl hfetch
      · exact Or.inr (Or.inl ⟨block, hblock, hbody⟩)
      · exact Or.inr (Or.inr (Or.inl ⟨block, hmem, j, hj, branch, hbranch, hcopy⟩))
    · rcases h.run_of_mem hblock hlowers hi with ⟨hdefs, j, hj, hij, hreads⟩
      refine Or.inr (Or.inr (Or.inr ⟨hdefs, Or.inl ?_⟩))
      exact ⟨block, hmem, j, hj, hij.op, hij.leading, hreads⟩
  · -- On an edge there are only copies and the jump.
    rcases h.mem_edge_code.mp hi with hcopy | rfl
    · exact Or.inr (Or.inr (Or.inl ⟨block, hblock, j, hj, branch, hbranch, hcopy⟩))
    · exact Or.inr (Or.inr (Or.inr ⟨rfl, Or.inr ⟨branch.target, rfl⟩⟩))

/-- A block reads old registers and the staging registers of its own inputs. -/
theorem reads_cases {k : Nat} {e : Block M} (he : (f.withCopies staging).blocks[k]? = some e)
    {i : Instr M} (hi : i ∈ e.code) {r : Register M} (hr : r ∈ i.reads) :
    r.Below n ∨ ∃ v ∈ f.inputsOf k, r = .virtual (stageOf staging v) := by
  rcases h.mem_code he hi with ⟨v, hv, rfl⟩ | ⟨block, hblock, hbody⟩ |
    ⟨block, hblock, j, hj, branch, hbranch, p, hp, rfl⟩ |
    ⟨_, ⟨block, hblock, j, hj, _, _, hreads⟩ | ⟨c, rfl⟩⟩
  · exact Or.inr ⟨v, hv, ((h.copy_of_input hv).1 r hr).1⟩
  · exact Or.inl (h.below.below (mem_registers_of_instr (List.mem_of_getElem? hblock)
      (Block.mem_code_iff.mpr (Or.inl hbody)) (Or.inr hr)))
  · exact Or.inl ((h.copy_of_move hblock hj hbranch hp).1 r hr).2
  · exact Or.inl (h.below.below (mem_registers_of_instr hblock
      (Block.mem_code_iff.mpr (Or.inr hj)) (Or.inr (hreads r hr))))
  · exact absurd hr (by simp [jumpTo, Instr.reads, Operand.reg?])

/-- A block writes old registers and staging registers. -/
theorem defs_cases {k : Nat} {e : Block M} (he : (f.withCopies staging).blocks[k]? = some e)
    {i : Instr M} (hi : i ∈ e.code) {r : Register M} (hr : r ∈ i.defs) :
    r.Below n ∨ ∃ c, ∃ v ∈ f.inputsOf c, r = .virtual (stageOf staging v) := by
  rcases h.mem_code he hi with ⟨v, hv, rfl⟩ | ⟨block, hblock, hbody⟩ |
    ⟨block, hblock, j, hj, branch, hbranch, p, hp, rfl⟩ | ⟨hdefs, _⟩
  · exact Or.inl ((h.copy_of_input hv).2 r hr).2
  · exact Or.inl (h.below.below (mem_registers_of_instr (List.mem_of_getElem? hblock)
      (Block.mem_code_iff.mpr (Or.inl hbody)) (Or.inl hr)))
  · rcases (h.copy_of_move hblock hj hbranch hp).2 with ⟨v, hv, _, hdefs⟩
    exact Or.inr ⟨_, v, hv, (hdefs r hr).1⟩
  · rw [hdefs] at hr
    exact absurd hr (by simp)

/-- On every walk to a block that needs an old register, an earlier block writes it,
    if that was so before. -/
theorem written_before (hf : 0 < f.size) {r : Register M} (hr : r.Below n) (hstrict : f.Strict r)
    {path : List Nat} {k : Nat} (hwalk : Walk (f.withCopies staging).next path k) {e : Block M}
    (he : (f.withCopies staging).blocks[k]? = some e) (hexposes : e.Exposes r) :
    ∃ c ∈ path, (f.withCopies staging).Defines c r := by
  have hproj := h.walk hf hwalk
  by_cases hk : k < f.size
  · rcases withCopies_of_block staging (List.getElem?_eq_getElem hk) with ⟨e', he', hlowers⟩
    obtain rfl := Option.some.inj (he.symm.trans he')
    have hold := h.exposes_block (List.getElem?_eq_getElem hk) hlowers hr hexposes
    rcases hstrict.available_of_exposes (List.getElem?_eq_getElem hk) hold _ (hproj.1 hk) with
      ⟨c, hc, hdef⟩
    exact ⟨c, (List.mem_filter.mp hc).1, (h.defines_iff hr).mpr hdef⟩
  · -- An edge needs what its branch reads, in the block that the walk has just left.
    rcases hproj.2 (by omega) with ⟨b, rest, block, rfl, hb, hstay, hblock, i, hi, branch, hbranch,
      hedge⟩
    obtain rfl := Option.some.inj (he.symm.trans hedge)
    have hread : r ∈ i.reads := by
      rcases hexposes.2.exists_read with ⟨j, hj, hread⟩
      rcases h.mem_edge_code.mp hj with ⟨p, hp, rfl⟩ | rfl
      · exact ((h.copy_of_move (List.mem_of_getElem? hblock) hi hbranch hp).1 r hread).1
      · exact absurd hread (by simp [jumpTo, Instr.reads, Operand.reg?])
    rcases List.getElem?_of_mem (Block.mem_code_iff.mpr (Or.inr hi)) with ⟨m, hm⟩
    rcases hstrict b block m i hblock hm hread with hbefore | havail
    · exact ⟨b, by simp, (h.defines_iff hr).mpr ⟨block, hblock, defines_of_definesBefore hbefore⟩⟩
    · rcases havail _ hstay with ⟨c, hc, hdef⟩
      exact ⟨c, List.mem_cons_of_mem _ (List.mem_filter.mp hc).1, (h.defines_iff hr).mpr hdef⟩

/-- An old register that is written is settled: one block writes it, on every walk
    to a read. -/
theorem settled_old {v : VReg M} (hv : v.id < n) {k : Nat}
    (hdef : (f.withCopies staging).Defines k (.virtual v)) :
    ((f.withCopies staging).presence (.virtual v)).Settled (f.withCopies staging).next := by
  have hbelow : (Register.virtual v).Below n := hv
  have hold := (h.defines_iff hbelow).mp hdef
  have hstrict := h.single.strict_of_names (h.single.names hold)
  have hf : 0 < f.size := by
    rcases hold with ⟨block, hblock, _⟩
    exact Nat.lt_of_le_of_lt (Nat.zero_le _) (List.getElem?_eq_some_iff.mp hblock).1
  -- Writes and reads of an old register are those of the function before.
  refine .of_strict (fun path e hwalk he => ?_) (fun c hc d hd => ?_)
  · rcases (mem_exposed_iff inputs_withCopies (Register.solitary_virtual v)).mp he with
      ⟨block, hblock, hexposes⟩
    rcases h.written_before hf hbelow hstrict hwalk hblock hexposes with ⟨c, hc, hdef⟩
    exact ⟨c, hc, mem_written_iff.mpr hdef⟩
  · rw [mem_written_iff, h.defines_iff hbelow] at hc hd
    exact h.single.defines_unique hc hd

/-- All blocks that control comes from write the staging registers of a block. -/
theorem staged_before {b c : Nat} (hc : c ∈ (f.withCopies staging).next b) {v : VReg M}
    (hv : v ∈ f.inputsOf c) : (f.withCopies staging).Defines b (.virtual (stageOf staging v)) := by
  rcases mem_next.mp hc with ⟨e, he, _, _⟩
  by_cases hb : b < f.size
  · rcases h.next_of_block hb hc with ⟨_, hstaged⟩ | ⟨hle, _⟩
    · exact hstaged v hv
    · rcases mem_inputsOf hv with ⟨block, hblock, _⟩
      exact absurd (List.getElem?_eq_some_iff.mp hblock).1 (Nat.not_lt.mpr hle)
  · rcases withCopies_of_edge he (by omega) with ⟨block, hblock, i, hi, branch, hbranch, _, _, rfl⟩
    exact (h.next_of_edge hblock hi hbranch he hc).2 v hv

/-- A staging register is live into the owner of its input and through no block. -/
theorem settled_staging {c : Nat} {v : VReg M} (hv : v ∈ f.inputsOf c) :
    ((f.withCopies staging).presence (.virtual (stageOf staging v))).Settled
      (f.withCopies staging).next := by
  have hinputs := h.single.inputsApart
  have hsolitary := Register.solitary_virtual (stageOf staging v)
  -- Only the owner reads it.
  have hexposed : ∀ k e, (f.withCopies staging).blocks[k]? = some e →
      e.Exposes (.virtual (stageOf staging v)) → k = c := by
    intro k e he hexposes
    rcases hexposes.2.exists_read with ⟨i, hi, hread⟩
    rcases h.reads_cases he hi hread with hbelow | ⟨w, hw, heq⟩
    · exact absurd hbelow (h.apart.not_below hv)
    · exact (h.apart.eq_of_stageOf hinputs hw hv (Register.virtual.inj heq).symm).1
  -- A block with a way to the owner writes it, so nothing is live further up.
  have hlive : ∀ k, (f.withCopies staging).LiveInto (.virtual (stageOf staging v)) k → k = c := by
    intro k hk
    induction hk with
    | here hb hexposes => exact hexposed _ _ hb hexposes
    | there hb hnext _ ih => exact absurd (h.staged_before hnext (ih ▸ hv)) hb
  refine .of_not_through fun b hthrough => ?_
  rcases (through_iff inputs_withCopies hsolitary).mp hthrough with ⟨hdef, d, hd, hliveInto⟩
  exact hdef (h.staged_before hd (hlive d hliveInto ▸ hv))

theorem settled {v : VReg M} {k : Nat} (hdef : (f.withCopies staging).Defines k (.virtual v)) :
    ((f.withCopies staging).presence (.virtual v)).Settled (f.withCopies staging).next := by
  have hdef' := hdef
  rcases hdef' with ⟨e, he, ⟨w, hw, _⟩ | ⟨i, hi, hr⟩⟩
  · rw [inputs_withCopies e (List.mem_of_getElem? he)] at hw
    exact absurd hw (by simp)
  · rcases h.defs_cases he hi hr with hbelow | ⟨c, w, hw, heq⟩
    · exact h.settled_old hbelow hdef
    · rw [heq]
      exact h.settled_staging hw

/-- The analysis of the result is exact. -/
theorem tractable : (f.withCopies staging).Tractable where
  inputs := inputs_withCopies
  terminated := h.single.terminated_withCopies h.apart
  quiet e he i hi := by
    rcases List.getElem?_of_mem he with ⟨k, hk⟩
    rcases withCopies_cases hk with ⟨block, hblock, hlowers⟩ | ⟨_, _, _, _, _, branch, _, rfl⟩
    · exact (h.run_of_mem hblock hlowers hi).1
    · rw [(h.apart.edge_body_run branch).2.1, List.mem_singleton] at hi
      rw [hi]
      rfl
  reached := h.single.reached_withCopies h.apart
  once e he i hi v := by
    rcases List.getElem?_of_mem he with ⟨k, hk⟩
    rcases h.mem_code hk hi with ⟨w, _, rfl⟩ | ⟨block, hblock, hbody⟩ |
      ⟨_, _, _, _, _, _, p, _, rfl⟩ | ⟨hdefs, _⟩
    · exact List.count_le_length
    · exact h.single.count_defs (List.mem_of_getElem? hblock)
        (Block.mem_code_iff.mpr (Or.inl hbody)) v
    · exact List.count_le_length
    · simp [hdefs]
  apart e he i hi v hdef hread := by
    rcases List.getElem?_of_mem he with ⟨k, hk⟩
    rcases h.mem_code hk hi with ⟨w, hw, rfl⟩ | ⟨block, hblock, hbody⟩ |
      ⟨block, hblock, j, hj, branch, hbranch, p, hp, rfl⟩ | ⟨hdefs, _⟩
    · -- Copies go between old and staging registers, in both directions.
      exact ((h.copy_of_input hw).1 _ hread).2 ((h.copy_of_input hw).2 _ hdef).2
    · exact h.single.reads_apart hblock (Block.mem_code_iff.mpr (Or.inl hbody)) hdef hread
    · rcases (h.copy_of_move hblock hj hbranch hp).2 with ⟨_, _, _, hdefs⟩
      exact (hdefs _ hdef).2 ((h.copy_of_move hblock hj hbranch hp).1 _ hread).2
    · rw [hdefs] at hdef
      exact absurd hdef (by simp)
  settled v k hdef := h.settled hdef

end Stages

end Function

end RegisterColoring
