import RegisterColoring.Allocation
import RegisterColoring.Machine.Flat
import RegisterColoring.Proofs.Copying
import RegisterColoring.Sample

/-!
# The Form of the Function With Copies

Replacing inputs leaves a function that is ready for allocation. No block has inputs and no
jump passes arguments. Every block still ends with terminators and has none elsewhere, jumps
name existing blocks, and every block is reached. The registers of the function are defined as
often as before, inputs by the copies that fetch them.

The control flow changes in one way. If the terminators of a block refer to a target more than
once, each of these references goes to a block of its own, which goes on to the target. So a
block has a successor in the original if it has it in the result, or over such a block.

Block references in other instructions are none of this pass's business. Nothing has checked
them and nothing changes them, so they name existing blocks only if they did before, or if
the block of a split edge happens to get the number.

What a function in single assignment form can lack is a jump to an entry block with inputs.
This is the one error there is, and it leaves everything as it was.

## Main definitions

* `Instr.Bare`: Nothing but block references follow the first of them.
* `Function.defCount`: How often a register is defined.
* `Function.Bare`: The form of a function without inputs.
* `Function.RefersInside`: All block references are to existing blocks.
* `Function.SplitsEdges`: What is left of a function in another one.

## Theorems

* `Function.SingleAssignment.body_run`, `Staging.Apart.edge_body_run`: The parts of the blocks.
* `Function.SingleAssignment.next_iff`: The successors of the original in the result.
* `Function.SingleAssignment.reached_withCopies`: Every block of the result is reached.
* `Function.SingleAssignment.defCount_withCopies`: Registers are defined as often as before.
* `Function.SingleAssignment.refersInside_withCopies_iff`: Which references have a block.
* `Function.lowerInputs_bare`: When inputs can be replaced, and what comes of it.
* `Function.strayReference_kept`: A reference without a block that stays.
-/

namespace RegisterColoring

variable {M : Machine}

namespace Instr

/-- Behind its first block reference the instruction has block references only. -/
def Bare (i : Instr M) : Prop :=
  ∀ (m k c : Nat) (u : Operand M), m < k → i.uses[m]? = some (.block c) →
    i.uses[k]? = some u → ∃ d, u = .block d

theorem bare_of_branches {i : Instr M} (h : ∀ branch ∈ i.branches, branch.args = []) :
    i.Bare := by
  have huses : i.uses = i.leading ++ i.branches.map fun branch => .block branch.target := by
    rw [List.map_eq_flatMap, i.uses_eq, joinBranches]
    refine congrArg (i.leading ++ ·) (List.flatMap_congr fun branch hbranch => ?_)
    rw [h branch hbranch]
  intro m k c u hmk hm hk
  -- The block reference is none of the leading operands, and so is what follows it.
  have hlead : i.leading.length ≤ m := by
    by_contra hlt
    rw [huses, List.getElem?_append_left (by omega)] at hm
    have hnone := block_eq_none_of_mem_leading (List.mem_of_getElem? hm)
    exact absurd hnone (by simp [Operand.block?])
  rw [huses, List.getElem?_append_right (by omega)] at hk
  rcases List.mem_map.mp (List.mem_of_getElem? hk) with ⟨branch, _, rfl⟩
  exact ⟨branch.target, rfl⟩

end Instr

/-- What the block defines, as an input or by an instruction. -/
def Block.results (b : Block M) : List (Register M) :=
  b.inputs.map Register.virtual ++ b.code.flatMap Instr.defs

namespace Staging.Apart

variable {f : Function M} {staging : Staging M} {n : Nat}

/-- An edge holds the copies for its branch and one jump. -/
theorem edge_body_run (ha : staging.Apart f n) (branch : Branch M) :
    (branch.edge f staging).body = (branch.moves f staging).map copyOf ∧
      (branch.edge f staging).run = [jumpTo branch.target] ∧
        (branch.edge f staging).Terminated := by
  have hcode : (branch.edge f staging).code =
      (branch.moves f staging).map copyOf ++ [jumpTo branch.target] := by
    rw [Branch.edge, ha.copies_eq]
  have hrun : ∀ i ∈ [jumpTo (M := M) branch.target], i.isTerminator = true := by
    intro i hi
    rw [List.mem_singleton.mp hi]
    rfl
  have hsplit := Block.body_run_of_append hcode copies_not_terminator hrun
  exact ⟨hsplit.1, hsplit.2,
    Block.Terminated.of_append hcode copies_not_terminator hrun (by simp)⟩

/-- The copies for a branch write staging registers. -/
theorem not_mem_defs_copies (ha : staging.Apart f n) {branch : Branch M}
    {p : VReg M × Operand M} (hp : p ∈ branch.moves f staging) {r : Register M} (hr : r.Below n) :
    r ∉ (copyOf p).defs := by
  rcases Branch.mem_moves.mp hp with ⟨v, u, hzip, rfl⟩
  intro hmem
  rw [copyOf, copyTo, List.mem_singleton] at hmem
  rw [hmem] at hr
  exact ha.not_below (List.of_mem_zip hzip).1 hr

end Staging.Apart

namespace Function

/-- How often the function defines register `r`. -/
def defCount (f : Function M) (r : Register M) : Nat :=
  (f.blocks.flatMap Block.results).count r

variable {f : Function M} {staging : Staging M} {n : Nat}

/-- A block of the result comes from a block or is the edge of a branch. -/
theorem withCopies_cases {k : Nat} {e : Block M}
    (hk : (f.withCopies staging).blocks[k]? = some e) :
    (∃ block, f.blocks[k]? = some block ∧ block.LowersTo f staging (f.edge? staging) e) ∨
      (f.size ≤ k ∧ ∃ block ∈ f.blocks, ∃ i ∈ block.run, ∃ branch ∈ i.branches,
        e = branch.edge f staging) := by
  by_cases hlt : k < f.size
  · refine Or.inl ⟨f.blocks[k], List.getElem?_eq_getElem hlt, ?_⟩
    rcases withCopies_of_block staging (List.getElem?_eq_getElem hlt) with ⟨c, hc, hlowers⟩
    rw [hk, Option.some.injEq] at hc
    exact hc ▸ hlowers
  · have hle : f.size ≤ k := by omega
    rcases withCopies_of_edge hk hle with ⟨block, hblock, i, hi, branch, hbranch, _, _, he⟩
    exact Or.inr ⟨hle, block, hblock, i, hi, branch, hbranch, he⟩

theorem inputs_withCopies : ∀ e ∈ (f.withCopies staging).blocks, e.inputs = [] := by
  intro e he
  rcases List.getElem?_of_mem he with ⟨k, hk⟩
  rcases withCopies_cases hk with ⟨block, _, hlowers⟩ | ⟨_, _, _, _, _, branch, _, rfl⟩
  · exact hlowers.inputs
  · rfl

/-- What a branch passes is no block, so its copies refer to none. -/
theorem references_copyOf {i : Instr M} {branch : Branch M} (hbranch : branch ∈ i.branches)
    {p : VReg M × Operand M} (hp : p ∈ branch.moves f staging) : (copyOf p).references = [] := by
  rcases Branch.mem_moves.mp hp with ⟨v, u, hzip, rfl⟩
  have hnone := Instr.block_eq_none_of_mem_args hbranch (List.of_mem_zip hzip).2
  simp [copyOf, copyTo, Instr.references, hnone]

namespace SingleAssignment

variable (h : f.SingleAssignment) (ha : staging.Apart f n)
include h ha

/-- The copies join the body of a block, and its terminators stay its run. -/
theorem body_run {b : Nat} {block c : Block M} (hb : f.blocks[b]? = some block)
    (hc : block.LowersTo f staging (f.edge? staging) c) :
    c.body = fetchCopies staging block.inputs ++ block.body ++
        copiesAhead f staging block.contests (block.run.flatMap Instr.branches) ∧
      List.Forall₂ (Instr.Rerouted f staging block.contests (f.edge? staging)) block.run c.run ∧
        c.Terminated := by
  have hterm := h.terminated block (List.mem_of_getElem? hb)
  rcases hc.code with ⟨run, hrun, hcode⟩
  -- Nothing ahead of the run is a terminator, and the run consists of terminators.
  have hbody : ∀ i ∈ fetchCopies staging block.inputs ++ block.body ++
      copiesAhead f staging block.contests (block.run.flatMap Instr.branches),
        i.isTerminator = false := by
    intro i hi
    rw [List.append_assoc, List.mem_append, List.mem_append, ← inputsOf_eq hb,
      ha.fetchCopies_eq, ha.copiesAhead_eq] at hi
    rcases hi with hi | hi | hi
    · exact copies_not_terminator i hi
    · exact hterm.not_terminator hi
    · exact copies_not_terminator i hi
  have hrun' : ∀ i ∈ run, i.isTerminator = true := by
    intro j hj
    rcases exists_left_of_forall₂ hrun hj with ⟨i, hi, hij⟩
    exact hij.isTerminator.trans (Block.isTerminator_of_mem_run hi)
  have hne : run ≠ [] := by
    intro hnil
    rw [hnil, List.forall₂_nil_right_iff] at hrun
    exact hterm.run_ne_nil hrun
  have hsplit := Block.body_run_of_append hcode hbody hrun'
  exact ⟨hsplit.1, hsplit.2 ▸ hrun, Block.Terminated.of_append hcode hbody hrun' hne⟩

theorem terminated_withCopies : ∀ e ∈ (f.withCopies staging).blocks, e.Terminated := by
  intro e he
  rcases List.getElem?_of_mem he with ⟨k, hk⟩
  rcases withCopies_cases hk with ⟨block, hblock, hlowers⟩ | ⟨_, _, _, _, _, branch, _, rfl⟩
  · exact (h.body_run ha hblock hlowers).2.2
  · exact (ha.edge_body_run branch).2.2

/-- Where a branch of the result comes from: the branch of a block, rerouted, or the jump at the
    end of an edge. -/
theorem branch_cases {k : Nat} {e : Block M} (hk : (f.withCopies staging).blocks[k]? = some e)
    {j : Instr M} (hj : j ∈ e.run) {other : Branch M} (hother : other ∈ j.branches) :
    (∃ block, f.blocks[k]? = some block ∧ ∃ i ∈ block.run, ∃ branch ∈ i.branches,
        Reroute f staging block.contests (f.edge? staging) branch other) ∨
      (f.size ≤ k ∧ ∃ branch : Branch M, branch.Fits f ∧ e = branch.edge f staging ∧
        other = ⟨branch.target, []⟩) := by
  rcases withCopies_cases hk with
    ⟨block, hblock, hlowers⟩ | ⟨hle, block, hblock, i, hi, branch, hbranch, rfl⟩
  · rcases exists_left_of_forall₂ (h.body_run ha hblock hlowers).2.1 hj with ⟨i, hi, hij⟩
    rcases exists_left_of_forall₂ hij.branches hother with ⟨branch, hbranch, hroute⟩
    exact Or.inl ⟨block, hblock, i, hi, branch, hbranch, hroute⟩
  · rw [(ha.edge_body_run branch).2.1, List.mem_singleton] at hj
    subst hj
    refine Or.inr ⟨hle, branch, h.fits_run hblock hi hbranch, rfl, ?_⟩
    simpa [Instr.branches, jumpTo, splitBranches, consOperand] using hother

/-- Jumps of the result pass no arguments and name existing blocks. -/
theorem branch_withCopies {k : Nat} {e : Block M} (hk : (f.withCopies staging).blocks[k]? = some e)
    {j : Instr M} (hj : j ∈ e.run) {other : Branch M} (hother : other ∈ j.branches) :
    other.args = [] ∧ other.target < (f.withCopies staging).size := by
  have hsize : f.size ≤ (f.withCopies staging).size := size_le_withCopies
  rcases h.branch_cases ha hk hj hother with
    ⟨block, hblock, i, hi, branch, hbranch, hroute⟩ | ⟨_, branch, hfits, _, rfl⟩
  · have hfits := h.fits_run (List.mem_of_getElem? hblock) hi hbranch
    have hbelow := hfits.target_lt
    cases hroute with
    | plain hin =>
        -- As many arguments as inputs, and there are no inputs.
        rcases hfits with ⟨target, htarget, hlen⟩
        rw [inputsOf_eq htarget] at hin
        rw [hin] at hlen
        exact ⟨List.eq_nil_of_length_eq_zero hlen, by omega⟩
    | ahead _ _ => exact ⟨rfl, by simp only; omega⟩
    | detour _ _ c hc =>
        exact ⟨rfl, (List.getElem?_eq_some_iff.mp (edge_eq_some_iff.mp hc).2).1⟩
  · have hbelow := hfits.target_lt
    exact ⟨rfl, by simp only; omega⟩

omit h in
/-- An edge has one successor. -/
theorem next_edge {k : Nat} {branch : Branch M}
    (hk : (f.withCopies staging).blocks[k]? = some (branch.edge f staging))
    (hfits : branch.Fits f) : (f.withCopies staging).next k = [branch.target] := by
  have hsize : f.size ≤ (f.withCopies staging).size := size_le_withCopies
  have hlt := hfits.target_lt
  have hsucc : (branch.edge f staging).successors = [branch.target] := by
    rw [Block.successors, (ha.edge_body_run branch).2.1]
    rfl
  rw [next_eq, List.getElem?_map, hk, Option.map_some, Option.getD_some, hsucc]
  simp only [List.filter_cons, List.filter_nil, below, decide_eq_true_eq]
  rw [if_pos (by omega)]

/-- A successor in the result is the target of a branch or an edge that leads to one. -/
theorem next_cases {b d : Nat} {block : Block M} (hblock : f.blocks[b]? = some block)
    (hd : d ∈ (f.withCopies staging).next b) :
    ∃ i ∈ block.run, ∃ branch ∈ i.branches, (d = branch.target ∧ d < f.size) ∨
      (f.size ≤ d ∧ (f.withCopies staging).next d = [branch.target]) := by
  rcases mem_next.mp hd with ⟨e, he, ⟨j, hj, href⟩, _⟩
  rw [Instr.references_eq, List.mem_map] at href
  rcases href with ⟨other, hother, rfl⟩
  rcases h.branch_cases ha he hj hother with
    ⟨block', hblock', i, hi, branch, hbranch, hroute⟩ | ⟨hle, _⟩
  · obtain rfl := Option.some.inj (hblock.symm.trans hblock')
    have hfits := h.fits_run (List.mem_of_getElem? hblock) hi hbranch
    refine ⟨i, hi, branch, hbranch, ?_⟩
    cases hroute with
    | plain _ => exact Or.inl ⟨rfl, hfits.target_lt⟩
    | ahead _ _ => exact Or.inl ⟨rfl, hfits.target_lt⟩
    | detour _ _ k hk =>
        rcases edge_eq_some_iff.mp hk with ⟨hle, hedge⟩
        exact Or.inr ⟨hle, next_edge ha hedge hfits⟩
  · -- The block is one of the original, so it is no edge.
    have hlt := (List.getElem?_eq_some_iff.mp hblock).1
    exact absurd hlt (Nat.not_lt.mpr hle)

/-- The successors of a block in the original are those it has in the result, directly or over
    an edge. -/
theorem next_iff {b c : Nat} (hb : b < f.size) (hc : c < f.size) :
    c ∈ f.next b ↔ c ∈ (f.withCopies staging).next b ∨
      ∃ k ∈ (f.withCopies staging).next b, f.size ≤ k ∧ (f.withCopies staging).next k = [c] := by
  have hsize : f.size ≤ (f.withCopies staging).size := size_le_withCopies
  have hblock := List.getElem?_eq_getElem hb
  have hmem := List.mem_of_getElem? hblock
  constructor
  · intro hnext
    rcases withCopies_of_block staging hblock with ⟨e, he, hlowers⟩
    rcases mem_next.mp hnext with ⟨block, hblock', ⟨i, hi, href⟩, _⟩
    obtain rfl := Option.some.inj (hblock.symm.trans hblock')
    rcases exists_right_of_forall₂ (h.body_run ha hblock hlowers).2.1 hi with ⟨j, hj, hij⟩
    rw [Instr.references_eq, List.mem_map] at href
    rcases href with ⟨branch, hbranch, rfl⟩
    rcases exists_right_of_forall₂ hij.branches hbranch with ⟨other, hother, hroute⟩
    have href : other.target ∈ j.references := by
      rw [Instr.references_eq]
      exact List.mem_map_of_mem hother
    cases hroute with
    | plain _ => exact Or.inl (mem_next.mpr ⟨e, he, ⟨j, hj, href⟩, by omega⟩)
    | ahead _ _ => exact Or.inl (mem_next.mpr ⟨e, he, ⟨j, hj, href⟩, by omega⟩)
    -- The way over the edge takes two steps.
    | detour _ _ k hk =>
        rcases edge_eq_some_iff.mp hk with ⟨hle, hedge⟩
        refine Or.inr ⟨k, mem_next.mpr ⟨e, he, ⟨j, hj, href⟩, ?_⟩, hle, ?_⟩
        · exact (List.getElem?_eq_some_iff.mp hedge).1
        · exact next_edge ha hedge (h.fits_run hmem hi hbranch)
  · intro hnext
    -- Either way, the block has a branch to `c`.
    have hback : ∀ i ∈ f.blocks[b].run, ∀ branch ∈ i.branches, branch.target = c →
        c ∈ f.next b := by
      rintro i hi branch hbranch rfl
      rcases h.fits_run hmem hi hbranch with ⟨target, htarget, _⟩
      exact mem_next_of_enter hblock hi hbranch htarget
    rcases hnext with hdirect | ⟨k, hk, hle, honly⟩
    · rcases h.next_cases ha hblock hdirect with ⟨i, hi, branch, hbranch, ⟨heq, _⟩ | ⟨hle, _⟩⟩
      · exact hback i hi branch hbranch heq.symm
      · omega
    · rcases h.next_cases ha hblock hk with ⟨i, hi, branch, hbranch, ⟨_, hlt⟩ | ⟨_, htarget⟩⟩
      · omega
      · rw [honly, List.cons.injEq] at htarget
        exact hback i hi branch hbranch htarget.1.symm

theorem walk_kept {path : List Nat} {c : Nat} (hwalk : Walk f.next path c) :
    ∃ longer, Walk (f.withCopies staging).next longer c := by
  induction hwalk with
  | start => exact ⟨[], .start⟩
  | @step path b c _ hedge ih =>
      rcases ih with ⟨longer, hlonger⟩
      have hb : b < f.size := by
        rcases mem_next.mp hedge with ⟨block, hblock, _, _⟩
        exact (List.getElem?_eq_some_iff.mp hblock).1
      rcases (h.next_iff ha hb (lt_size_of_mem_next hedge)).mp hedge with
        hdirect | ⟨k, hk, _, honly⟩
      · exact ⟨_, hlonger.step hdirect⟩
      · refine ⟨_, (hlonger.step hk).step ?_⟩
        rw [honly]
        exact List.mem_singleton.mpr rfl

/-- Every block of the result is reached: the old ones as before, and an edge from
    the block that refers to it. -/
theorem reached_withCopies :
    ∀ k < (f.withCopies staging).size, ∃ path, Walk (f.withCopies staging).next path k := by
  have hold : ∀ b < f.size, ∃ path, Walk (f.withCopies staging).next path b := by
    intro b hb
    rcases h.exists_walk hb with ⟨path, hwalk⟩
    exact h.walk_kept ha hwalk
  intro k hk
  by_cases hlt : k < f.size
  · exact hold k hlt
  · -- A block on an edge is entered from the block of the branch.
    rcases edge_referenced hk (by omega) with ⟨b, hb, e, he, i, hi, hterm, href⟩
    have hrun := (h.terminated_withCopies ha e (List.mem_of_getElem? he)).mem_run hi hterm
    rcases hold b hb with ⟨path, hwalk⟩
    exact ⟨_, hwalk.step (mem_next.mpr ⟨e, he, ⟨i, hrun, href⟩, hk⟩)⟩

/-- A block of the result defines the registers of its original as often. -/
theorem count_results_block {b : Nat} {block c : Block M} (hb : f.blocks[b]? = some block)
    (hc : block.LowersTo f staging (f.edge? staging) c) {r : Register M} (hr : r.Below n) :
    c.results.count r = block.results.count r := by
  rcases h.body_run ha hb hc with ⟨hbody, hrun, _⟩
  have hfetch : (fetchCopies staging block.inputs).flatMap Instr.defs =
      block.inputs.map Register.virtual := by
    rw [← inputsOf_eq hb, ha.fetchCopies_eq, List.map_map, List.flatMap_map, List.map_eq_flatMap]
    rfl
  have hahead : ((copiesAhead f staging block.contests
      (block.run.flatMap Instr.branches)).flatMap Instr.defs).count r = 0 := by
    rw [ha.copiesAhead_eq, List.count_eq_zero]
    intro hmem
    rcases List.mem_flatMap.mp hmem with ⟨i, hi, hdef⟩
    rcases List.mem_map.mp hi with ⟨p, hp, rfl⟩
    rcases List.mem_flatMap.mp hp with ⟨branch, _, hp⟩
    exact ha.not_mem_defs_copies hp hr hdef
  have hruns : c.run.flatMap Instr.defs = block.run.flatMap Instr.defs := by
    rw [List.flatMap_def, List.flatMap_def, map_eq_of_forall₂ hrun fun i _ j hij => hij.defs]
  unfold Block.results
  rw [hc.inputs, ← c.body_append_run, hbody, ← block.body_append_run]
  simp only [List.flatMap_append, List.count_append, hfetch, hahead, hruns, List.map_nil,
    List.count_nil]
  omega

omit h in
/-- An edge defines no register of the function. -/
theorem not_mem_results_edge (branch : Branch M) {r : Register M} (hr : r.Below n) :
    r ∉ (branch.edge f staging).results := by
  intro hmem
  -- An edge has no inputs.
  rcases List.mem_flatMap.mp hmem with ⟨i, hi, hdef⟩
  rw [Branch.edge, ha.copies_eq] at hi
  rcases List.mem_append.mp hi with hi | hi
  · rcases List.mem_map.mp hi with ⟨p, hp, rfl⟩
    exact ha.not_mem_defs_copies hp hr hdef
  · rw [List.mem_singleton.mp hi] at hdef
    exact absurd hdef (by simp [jumpTo])

/-- The registers of the function are defined as often as before. -/
theorem defCount_withCopies (hbelow : f.IdsBelow n) {r : Register M} (hr : r ∈ f.registers) :
    (f.withCopies staging).defCount r = f.defCount r := by
  have hblocks : (lowerBlocks f staging f.size f.blocks).1.map (fun e => e.results.count r) =
      f.blocks.map fun b => b.results.count r := by
    refine map_eq_of_forall₂ (forall₂_lowersTo f staging) fun block hblock e hlowers => ?_
    rcases List.getElem?_of_mem hblock with ⟨b, hb⟩
    exact h.count_results_block ha hb hlowers (hbelow.below hr)
  have hedges : r ∉ (lowerBlocks f staging f.size f.blocks).2.flatMap Block.results := by
    intro hmem
    rcases List.mem_flatMap.mp hmem with ⟨e, he, hmem⟩
    rcases mem_edges_lowerBlocks he with ⟨_, _, _, _, branch, _, _, _, rfl⟩
    exact not_mem_results_edge ha branch (hbelow.below hr) hmem
  unfold defCount
  rw [blocks_withCopies, List.flatMap_append, List.count_append, List.count_eq_zero.mpr hedges,
    List.count_flatMap, List.count_flatMap]
  exact congrArg List.sum hblocks

/-- Copies have no block operands, so those of other instructions are as they were. -/
theorem exists_operands_before {b : Nat} {e : Block M}
    (he : (f.withCopies staging).blocks[b]? = some e) {i : Instr M} (hi : i ∈ e.code)
    (hterm : i.isTerminator = false) (href : i.references ≠ []) :
    ∃ block, f.blocks[b]? = some block ∧ i ∈ block.code := by
  rcases withCopies_cases he with
    ⟨block, hblock, hlowers⟩ | ⟨_, _, _, _, _, branch, hbranch, rfl⟩
  · refine ⟨block, hblock, ?_⟩
    rcases h.body_run ha hblock hlowers with ⟨hbody, _, _⟩
    rcases Block.mem_code_iff.mp hi with hi | hi
    · rw [hbody, List.append_assoc, List.mem_append, List.mem_append, ← inputsOf_eq hblock,
        ha.fetchCopies_eq, ha.copiesAhead_eq] at hi
      rcases hi with hi | hi | hi
      · rw [List.map_map] at hi
        rcases List.mem_map.mp hi with ⟨v, _, rfl⟩
        exact absurd rfl href
      · exact Block.mem_code_iff.mpr (Or.inl hi)
      · rcases List.mem_map.mp hi with ⟨p, hp, rfl⟩
        rcases List.mem_flatMap.mp hp with ⟨branch, hbranch, hp⟩
        rcases List.mem_flatMap.mp (List.mem_filter.mp hbranch).1 with ⟨j, _, hbranch⟩
        exact absurd (references_copyOf hbranch hp) href
    · rw [Block.isTerminator_of_mem_run hi] at hterm
      exact absurd hterm (by simp)
  · rw [Branch.edge, ha.copies_eq] at hi
    rcases List.mem_append.mp hi with hi | hi
    · rcases List.mem_map.mp hi with ⟨p, hp, rfl⟩
      exact absurd (references_copyOf hbranch hp) href
    · rw [List.mem_singleton.mp hi] at hterm
      cases hterm

theorem operands_withCopies {b : Nat} {e : Block M}
    (he : (f.withCopies staging).blocks[b]? = some e) {i : Instr M}
    (hterm : i.isTerminator = false) (href : i.references ≠ []) :
    i ∈ e.code ↔ ∃ block, f.blocks[b]? = some block ∧ i ∈ block.code := by
  constructor
  · exact fun hi => h.exists_operands_before ha he hi hterm href
  · rintro ⟨block, hblock, hi⟩
    rcases withCopies_of_block staging hblock with ⟨c, hc, hlowers⟩
    rw [he, Option.some.injEq] at hc
    subst hc
    -- The body of the block is kept between the copies.
    rcases Block.mem_code_iff.mp hi with hi | hi
    · refine Block.mem_code_iff.mpr (Or.inl ?_)
      rw [(h.body_run ha hblock hlowers).1]
      simp [hi]
    · rw [Block.isTerminator_of_mem_run hi] at hterm
      exact absurd hterm (by simp)

end SingleAssignment

/-- All block references are to existing blocks. -/
def RefersInside (g : Function M) : Prop :=
  ∀ i ∈ g.instructions, ∀ c ∈ i.references, c < g.size

/-- The form of a function whose inputs have been replaced. -/
structure Bare (g : Function M) : Prop where
  inputs : ∀ b ∈ g.blocks, b.inputs = []
  terminated : ∀ b ∈ g.blocks, b.Terminated
  /-- Jumps pass no arguments. -/
  bare : ∀ i ∈ g.instructions, i.isTerminator = true → i.Bare
  /-- Jumps are to existing blocks. -/
  refers : ∀ i ∈ g.instructions, i.isTerminator = true → ∀ c ∈ i.references, c < g.size
  reached : ∀ b < g.size, ∃ path, g.Route path b

/-- The blocks of `f` come first in `g`. Those behind them split edges of `f`. -/
structure SplitsEdges (f g : Function M) : Prop where
  size : f.size ≤ g.size
  defCount : ∀ r ∈ f.registers, g.defCount r = f.defCount r
  next_iff : ∀ b < f.size, ∀ c < f.size, c ∈ f.next b ↔
    c ∈ g.next b ∨ ∃ k ∈ g.next b, f.size ≤ k ∧ g.next k = [c]
  /-- What refers to blocks and is no terminator stays where it was. -/
  operands : ∀ (b : Nat) (e : Block M), g.blocks[b]? = some e → ∀ i : Instr M,
    i.isTerminator = false → i.references ≠ [] →
      (i ∈ e.code ↔ ∃ block, f.blocks[b]? = some block ∧ i ∈ block.code)
  /-- So references are to existing blocks exactly if these are. -/
  refersInside_iff : g.RefersInside ↔
    ∀ i ∈ f.instructions, i.isTerminator = false → ∀ c ∈ i.references, c < g.size

section Lowered

variable {supply : Supply}

theorem SingleAssignment.bare_withCopies (h : f.SingleAssignment) (ha : staging.Apart f n) :
    (f.withCopies staging).Bare where
  inputs := inputs_withCopies
  terminated := h.terminated_withCopies ha
  bare j hj hterm := by
    rcases List.mem_flatMap.mp hj with ⟨e, he, hj⟩
    rcases List.getElem?_of_mem he with ⟨k, hk⟩
    have hrun := (h.terminated_withCopies ha e he).mem_run hj hterm
    exact Instr.bare_of_branches fun other hother => (h.branch_withCopies ha hk hrun hother).1
  refers j hj hterm c hc := by
    rcases List.mem_flatMap.mp hj with ⟨e, he, hj⟩
    rcases List.getElem?_of_mem he with ⟨k, hk⟩
    have hrun := (h.terminated_withCopies ha e he).mem_run hj hterm
    rw [Instr.references_eq, List.mem_map] at hc
    rcases hc with ⟨other, hother, rfl⟩
    exact (h.branch_withCopies ha hk hrun hother).2
  reached b hb := by
    rcases h.reached_withCopies ha b hb with ⟨path, hwalk⟩
    exact ⟨path, route_iff.mpr hwalk⟩

/-- Terminators refer to existing blocks, and the others to the blocks they referred to. -/
theorem SingleAssignment.refersInside_withCopies_iff (h : f.SingleAssignment)
    (ha : staging.Apart f n) :
    (f.withCopies staging).RefersInside ↔ ∀ i ∈ f.instructions, i.isTerminator = false →
      ∀ c ∈ i.references, c < (f.withCopies staging).size := by
  constructor
  · intro hinside i hi hterm c hc
    rcases List.mem_flatMap.mp hi with ⟨block, hblock, hi⟩
    rcases List.getElem?_of_mem hblock with ⟨b, hb⟩
    rcases withCopies_of_block staging hb with ⟨e, he, _⟩
    have hkept := (h.operands_withCopies ha he hterm (List.ne_nil_of_mem hc)).mpr ⟨block, hb, hi⟩
    exact hinside i (List.mem_flatMap.mpr ⟨e, List.mem_of_getElem? he, hkept⟩) c hc
  · intro hinside i hi c hc
    cases hterm : i.isTerminator with
    | true => exact (h.bare_withCopies ha).refers i hi hterm c hc
    | false =>
        rcases List.mem_flatMap.mp hi with ⟨e, he, hi⟩
        rcases List.getElem?_of_mem he with ⟨b, hb⟩
        rcases h.exists_operands_before ha hb hi hterm (List.ne_nil_of_mem hc) with
          ⟨block, hblock, hi⟩
        refine hinside i ?_ hterm c hc
        exact List.mem_flatMap.mpr ⟨block, List.mem_of_getElem? hblock, hi⟩

/-- An entry block that nothing jumps to is the first one whose input is missed. -/
theorem unsupplied_of_entry (hentry : ¬ f.EntrySupplied) :
    ∃ v ∈ (f.inputsOf 0).head?, f.unsuppliedInput? = some (.unsuppliedInput v.id 0) := by
  rw [EntrySupplied, not_or] at hentry
  rcases List.exists_cons_of_ne_nil hentry.1 with ⟨v, rest, hinputs⟩
  rcases mem_inputsOf (f := f) (b := 0) (v := v) (by rw [hinputs]; simp) with ⟨block, hblock, _⟩
  refine ⟨v, by rw [hinputs]; rfl, ?_⟩
  have hnot : 0 ∉ f.suppliedBlocks := fun hmem => hentry.2 (mem_suppliedBlocks_iff.mp hmem)
  rw [inputsOf_eq hblock] at hinputs
  -- The entry block is the first one that the search looks at.
  rcases hblocks : f.blocks with _ | ⟨first, others⟩
  · rw [hblocks] at hblock
    exact absurd hblock (by simp)
  · rw [hblocks, List.getElem?_cons_zero, Option.some.injEq] at hblock
    unfold unsuppliedInput?
    rw [hblocks, List.zipIdx_cons, List.findSome?_cons, hblock]
    simp [hinputs, hnot]

/-- Inputs of a checked function can be replaced unless nothing jumps to an entry block that has
    some, and then everything stays as it was. The result is ready for allocation, and it is
    the function with some edges split. Its jumps are to existing blocks. What else refers to
    blocks has not been checked and is kept, so a reference to no block stays one. -/
theorem lowerInputs_bare (hcheck : f.check = .ok ())
    (hfresh : supply.FreshFor f (f.staging supply).length) :
    (f.EntrySupplied → ∃ g, f.lowerInputs supply =
        .ok (g, supply.afterRegs (f.staging supply).length) ∧ g.Bare ∧ f.SplitsEdges g) ∧
      (¬ f.EntrySupplied → ∃ v ∈ (f.inputsOf 0).head?,
        f.lowerInputs supply = .error (.unsupported (.unsuppliedInput v.id 0)) ∧
          ∀ options, options.lowerInputs = true →
            (f.compile options supply).workspace = ⟨f, supply⟩) := by
  have hssa := SingleAssignment.of_check hcheck
  constructor
  · intro hentry
    have hmissing : f.missingArgument? (f.staging supply) = none :=
      hssa.missingArgument_eq_none_of_supplied hentry
    rcases exists_apart_staging hmissing hfresh with ⟨n, hbelow, hapart⟩
    have hok := lowerInputs_eq_ok_iff.mpr ⟨hssa.unsupplied_eq_none_of_supplied hentry,
      hssa.missingTarget_eq_none, hmissing, rfl, rfl⟩
    refine ⟨_, hok, hssa.bare_withCopies hapart, size_le_withCopies, fun r hr => ?_,
      fun b hb c hc => hssa.next_iff hapart hb hc, fun b e he i => ?_,
      hssa.refersInside_withCopies_iff hapart⟩
    · exact hssa.defCount_withCopies hapart hbelow hr
    · exact hssa.operands_withCopies hapart he
  · intro hentry
    rcases unsupplied_of_entry hentry with ⟨v, hv, hunsupplied⟩
    have herror : f.lowerInputs supply = .error (.unsupported (.unsuppliedInput v.id 0)) := by
      simp only [lowerInputs, hunsupplied]
    refine ⟨v, hv, herror, fun options hlower => ?_⟩
    have hchecked : f.checkIf options = .ok () := by
      unfold checkIf
      rw [hcheck]
      split <;> rfl
    simp only [compile, hchecked, lowerIf, hlower, if_true, herror]

end Lowered

/-- One jump that goes to the same block on both ways, with different arguments. -/
def bothWays : Function flat :=
  let r (k : Nat) : VReg flat := ⟨k, FlatClass.mk 4⟩
  ⟨"f", [⟨[], [Sample.assign .copy (r 0) [.imm 1],
      Sample.perform .jnz [.ofVReg (r 0), .block 1, .ofVReg (r 0), .block 1, .imm 5]]⟩,
    ⟨[r 1], [Sample.perform .ret [.ofVReg (r 1)]]⟩]⟩

/-- A function that takes an input from outside. -/
def returnsInput : Function flat :=
  let r : VReg flat := ⟨0, FlatClass.mk 4⟩
  ⟨"f", [⟨[r], [Sample.perform .ret [.ofVReg r]]⟩]⟩

/-- Both references of the jump get an edge, and the input from outside is refused. -/
theorem bothWays_bare :
    (∃ g rest, bothWays.lowerInputs ⟨2, 0⟩ = .ok (g, rest) ∧ g.Bare ∧ bothWays.SplitsEdges g ∧
        g.next 0 = [2, 3]) ∧
      (returnsInput.compile ⟨true, true⟩ ⟨1, 0⟩).workspace = ⟨returnsInput, ⟨1, 0⟩⟩ := by
  have hfresh : Supply.FreshFor ⟨2, 0⟩ bothWays (bothWays.staging ⟨2, 0⟩).length := by decide
  have hnone : Supply.FreshFor ⟨1, 0⟩ returnsInput (returnsInput.staging ⟨1, 0⟩).length := by decide
  constructor
  · rcases (lowerInputs_bare (by decide) hfresh).1 (Or.inl rfl) with ⟨g, hlower, hbare, hsplits⟩
    refine ⟨g, _, hlower, hbare, hsplits, ?_⟩
    obtain ⟨rfl, _⟩ := Prod.mk.inj (Except.ok.inj hlower)
    rfl
  · have hentry : ¬ returnsInput.EntrySupplied := by
      simp [EntrySupplied, returnsInput, inputsOf, instructions, Sample.perform, Instr.references,
        Operand.ofVReg, Operand.block?]
    rcases (lowerInputs_bare (by decide) hnone).2 hentry with ⟨_, _, _, hstays⟩
    exact hstays ⟨true, true⟩ rfl

/-- A copy of a reference to a block that the function does not have. -/
def strayReference : Function flat :=
  let r : VReg flat := ⟨0, FlatClass.mk 4⟩
  ⟨"f", [⟨[], [Sample.assign .copy r [.block 7], Sample.perform .ret [.ofVReg r]]⟩]⟩

/-- The function passes the check, and what comes of it still refers to the missing block. -/
theorem strayReference_kept : strayReference.check = .ok () ∧
    Supply.FreshFor ⟨1, 0⟩ strayReference (strayReference.staging ⟨1, 0⟩).length ∧
      ∃ g rest, strayReference.lowerInputs ⟨1, 0⟩ = .ok (g, rest) ∧ ¬ g.RefersInside := by
  refine ⟨by decide, by decide, _, _, rfl, fun hinside => ?_⟩
  -- The copy is the first instruction of the one block there is.
  have hlt := hinside _ (List.mem_flatMap.mpr ⟨_, List.mem_singleton_self _,
    List.mem_cons_self⟩) 7 (by decide)
  exact absurd hlt (by decide)

end Function

end RegisterColoring
