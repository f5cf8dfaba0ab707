import RegisterColoring.Machine.Flat
import RegisterColoring.Proofs.Copying
import RegisterColoring.Sample

/-!
# Copies Mean What Inputs Mean

A jump assigns the inputs of its target at once and only when it is taken. With
copies, the arguments go to the staging registers whether or not the jump is
taken, and the target fetches them. The two functions are compared at the entries
of blocks, where the second one is behind: the inputs still lie in the staging
registers. Everything else that the first function can name is the same in both.

Arguments are now read before it is known which jump is taken, so a run could fail
on an argument that was never needed. `Function.ArgsReady` excludes that. In single
assignment form it holds because an argument is written on every walk to the jump.

## Main definitions

* `Function.ArgsReady`: Arguments hold values when the terminators are reached.
* `Function.Lowerable`: What the comparison needs to know about a function.
* `Function.Entered`: How stores are related at the entry of a block.
* `Operand.IsPlain`, `Operand.IsValue`: The operands that the comparison allows.

## Theorems

* `Function.Lowerable.stage_ahead`: What the copies before the terminators do.
* `Function.Lowerable.leave_edge`: What an edge does.
* `Function.Lowerable.taken_matches`: What a rerouted branch does.
* `Function.Lowerable.stay_matches`: The stays in a block match.
* `Function.Lowerable.returns_iff`: Both functions return the same values.
-/

namespace RegisterColoring

variable {M : Machine}

namespace Function

/-- Every argument of a jump is a constant or a register that is written in its
    block or on all walks to it. -/
def ArgsReady (f : Function M) : Prop :=
  ∀ b block, f.blocks[b]? = some block → ∀ i ∈ block.run, ∀ branch ∈ i.branches,
    ∀ u ∈ branch.args, (∃ x, u = .imm x) ∨
      ∃ r, u = .reg r ∧ (block.Defines r ∨ f.Available b r)

/-- A function whose inputs can be replaced by copies through staging registers. -/
structure Lowerable (f : Function M) (staging : Staging M) (n : Nat) : Prop where
  runnable : f.Runnable
  inputs : f.InputsApart
  below : f.IdsBelow n
  apart : staging.Apart f n
  args : f.ArgsReady

/-- At the entry of block `b`, the inputs lie in their staging registers in the
    second store, and old registers that are no inputs are the same in both. -/
structure Entered (f : Function M) (staging : Staging M) (n : Nat) (b : Nat) (s t : Store M) :
    Prop where
  slots : t.slots = s.slots
  old : ∀ r : Register M, r.Below n → (∀ v ∈ f.inputsOf b, r ≠ .virtual v) → t.regs r = s.regs r
  staged : ∀ v ∈ f.inputsOf b, t.regs (.virtual (stageOf staging v)) = s.regs (.virtual v)

/-- A block of the first function is entered. -/
abbrev Arrived (f : Function M) (staging : Staging M) (n : Nat) (b : Nat) (s t : Store M) : Prop :=
  b < f.size ∧ f.Entered staging n b s t

variable {f : Function M} {staging : Staging M} {n : Nat}

namespace Lowerable

theorem below_of_read (h : f.Lowerable staging n) {block : Block M} (hblock : block ∈ f.blocks)
    {i : Instr M} (hi : i ∈ block.code) {r : Register M} (hr : r ∈ i.reads) : r.Below n :=
  h.below.below (mem_registers_of_instr hblock hi (Or.inr hr))

theorem below_of_run (h : f.Lowerable staging n) {block : Block M} (hblock : block ∈ f.blocks)
    {i : Instr M} (hi : i ∈ block.run) {u : Operand M} (hu : u ∈ i.uses) {r : Register M}
    (hr : u = .reg r) : r.Below n :=
  h.below_of_read hblock (Block.mem_code_iff.mpr (Or.inr hi)) (Instr.mem_reads.mpr (hr ▸ hu))

theorem arg_mem_uses {i : Instr M} {branch : Branch M} (hbranch : branch ∈ i.branches)
    {u : Operand M} (hu : u ∈ branch.args) : u ∈ i.uses :=
  Instr.mem_uses_iff.mpr (Or.inr ⟨branch, hbranch, Or.inr hu⟩)

/-- No argument reads a staging register. -/
theorem moves_read (h : f.Lowerable staging n) {block : Block M} (hblock : block ∈ f.blocks)
    {j : Instr M} (hj : j ∈ block.run) {branch other : Branch M}
    (hother : other ∈ j.branches) {p q : VReg M × Operand M}
    (hp : p ∈ branch.moves f staging) (hq : q ∈ other.moves f staging) : q.2 ≠ .ofVReg p.1 := by
  rcases Branch.mem_moves.mp hp with ⟨v, u, hv, rfl⟩
  rcases Branch.mem_moves.mp hq with ⟨w, x, hw, rfl⟩
  intro heq
  have hbelow := h.below_of_run hblock hj (arg_mem_uses hother (List.of_mem_zip hw).2) heq
  exact h.apart.not_below (List.of_mem_zip hv).1 hbelow

/-- After the body of a block, the arguments of its jumps hold values. -/
theorem isSome_arg (h : f.Lowerable staging n) {b : Nat} {block : Block M}
    (hb : f.blocks[b]? = some block) {s t : Store M} (hready : f.Ready b s)
    (hpass : f.pass? s block.body = some t) {i : Instr M} (hi : i ∈ block.run)
    {branch : Branch M} (hbranch : branch ∈ i.branches) {u : Operand M} (hu : u ∈ branch.args) :
    (t.value? u).isSome := by
  rcases h.args b block hb i hi branch hbranch u hu with ⟨x, rfl⟩ | ⟨r, rfl, hr⟩
  · rfl
  · exact isSome_of_ready h.runnable hb hready hpass hr

/-- Copies into staging registers keep what the first function can name. -/
theorem agree_of_moves (h : f.Lowerable staging n) {moves : List (VReg M × Operand M)}
    (hmoves : ∀ p ∈ moves, ∃ branch : Branch M, p ∈ branch.moves f staging) {s t t' : Store M}
    (hagree : s.AgreeOn (Register.Below n) t) (hslots : t'.slots = t.slots)
    (hkept : ∀ r, (∀ p ∈ moves, r ≠ .virtual p.1) → t'.regs r = t.regs r) :
    s.AgreeOn (Register.Below n) t' := by
  refine ⟨hslots.trans hagree.slots, fun r hr => ?_⟩
  rw [hkept r fun p hp heq => ?_, hagree.regs r hr]
  rcases hmoves p hp with ⟨branch, hmem⟩
  rcases Branch.mem_moves.mp hmem with ⟨v, u, hv, rfl⟩
  rw [heq] at hr
  exact h.apart.not_below (List.of_mem_zip hv).1 hr

/-- The values of arguments, in stores that agree. -/
theorem value_arg (h : f.Lowerable staging n) {block : Block M} (hblock : block ∈ f.blocks)
    {i : Instr M} (hi : i ∈ block.run) {u : Operand M} (hu : u ∈ i.uses)
    {s t : Store M} (hagree : s.AgreeOn (Register.Below n) t) : t.value? u = s.value? u :=
  hagree.value fun _ hr => h.below_of_run hblock hi hu hr

/-- What the copies of a branch read has the same value in stores that agree. -/
theorem value_move (h : f.Lowerable staging n) {block : Block M} (hblock : block ∈ f.blocks)
    {i : Instr M} (hi : i ∈ block.run) {branch : Branch M} (hbranch : branch ∈ i.branches)
    {s t : Store M} (hagree : s.AgreeOn (Register.Below n) t)
    (hsome : ∀ u ∈ branch.args, (s.value? u).isSome) {p : VReg M × Operand M}
    (hp : p ∈ branch.moves f staging) : t.value? p.2 = s.value? p.2 ∧ (t.value? p.2).isSome := by
  rcases Branch.mem_moves.mp hp with ⟨v, u, hv, rfl⟩
  have hu := (List.of_mem_zip hv).2
  have hvalue := h.value_arg hblock hi (arg_mem_uses hbranch hu) hagree
  exact ⟨hvalue, by rw [hvalue]; exact hsome u hu⟩

/-- The copies before the terminators put the arguments of all branches that are
    served there into the staging registers. -/
theorem stage_ahead (h : f.Lowerable staging n) {g : Function M} {block : Block M}
    (hblock : block ∈ f.blocks) {s t : Store M} (hagree : s.AgreeOn (Register.Below n) t)
    (hsome : ∀ i ∈ block.run, ∀ branch ∈ i.branches, ∀ u ∈ branch.args, (s.value? u).isSome) :
    ∃ t', g.pass? t (copiesAhead f staging block.contests (block.run.flatMap Instr.branches)) =
        some t' ∧ s.AgreeOn (Register.Below n) t' ∧
      ∀ i ∈ block.run, ∀ branch ∈ i.branches, branch.isAhead f block.contests = true →
        ∀ p ∈ branch.moves f staging, t'.regs (.virtual p.1) = s.value? p.2 := by
  -- All these copies come from branches of the block.
  have hfrom : ∀ p ∈ ((block.run.flatMap Instr.branches).filter
      (Branch.isAhead f block.contests)).flatMap (Branch.moves f staging),
        ∃ i ∈ block.run, ∃ branch ∈ i.branches, p ∈ branch.moves f staging := by
    intro p hp
    rcases List.mem_flatMap.mp hp with ⟨branch, hbranch, hmove⟩
    rcases List.mem_flatMap.mp (List.mem_filter.mp hbranch).1 with ⟨i, hi, hmem⟩
    exact ⟨i, hi, branch, hmem, hmove⟩
  rw [h.apart.copiesAhead_eq]
  -- No copy reads what another one writes, so they can be taken as one assignment.
  rcases pass_copies g _ t (fun p hp q hq => by
      rcases hfrom p hp with ⟨_, _, branch, _, hp⟩
      rcases hfrom q hq with ⟨j, hj, other, hother, hq⟩
      exact h.moves_read hblock hj hother hp hq) (fun p hp => by
      rcases hfrom p hp with ⟨i, hi, branch, hbranch, hp⟩
      exact (h.value_move hblock hi hbranch hagree (hsome i hi branch hbranch) hp).2)
      (fun p hp q hq => moves_functional h.apart h.inputs hp hq)
    with ⟨t', hpass, hslots, hwritten, hkept⟩
  refine ⟨t', hpass, h.agree_of_moves (fun p hp => ?_) hagree hslots hkept, ?_⟩
  · rcases hfrom p hp with ⟨_, _, branch, _, hp⟩
    exact ⟨branch, hp⟩
  · intro i hi branch hbranch hahead p hp
    rw [hwritten p, (h.value_move hblock hi hbranch hagree (hsome i hi branch hbranch) hp).1]
    refine List.mem_flatMap.mpr ⟨branch, List.mem_filter.mpr ⟨?_, hahead⟩, hp⟩
    exact List.mem_flatMap.mpr ⟨i, hi, hbranch⟩

/-- An edge copies the arguments of its branch and enters its target. -/
theorem leave_edge (h : f.Lowerable staging n) {g : Function M} {block : Block M}
    (hblock : block ∈ f.blocks) {i : Instr M} (hi : i ∈ block.run) {branch : Branch M}
    (hbranch : branch ∈ i.branches) {target : Block M}
    (htarget : g.blocks[branch.target]? = some target) (hinputs : target.inputs = [])
    {s t : Store M} (hagree : s.AgreeOn (Register.Below n) t)
    (hsome : ∀ u ∈ branch.args, (s.value? u).isSome) :
    ∃ t', g.leave? t (branch.edge f staging).code = some (.enter t' branch.target) ∧
      s.AgreeOn (Register.Below n) t' ∧
        ∀ p ∈ branch.moves f staging, t'.regs (.virtual p.1) = s.value? p.2 := by
  -- A block on an edge has the copies of one branch, to different inputs.
  rcases pass_copies g (branch.moves f staging) t
      (fun p hp q hq => h.moves_read hblock hi hbranch hp hq)
      (fun p hp => (h.value_move hblock hi hbranch hagree hsome hp).2) (fun p hp q hq heq => by
        rcases Branch.mem_moves.mp hp with ⟨v, u, hv, rfl⟩
        rcases Branch.mem_moves.mp hq with ⟨w, x, hw, rfl⟩
        rcases h.apart.eq_of_stageOf h.inputs (List.of_mem_zip hv).1 (List.of_mem_zip hw).1 heq
          with ⟨_, rfl⟩
        exact eq_of_mem_zip (h.inputs.nodup branch.target) hv hw)
    with ⟨t', hpass, hslots, hwritten, hkept⟩
  refine ⟨t', ?_, h.agree_of_moves (fun p hp => ⟨branch, hp⟩) hagree hslots hkept, fun p hp => ?_⟩
  · have hjump : (jumpTo branch.target : Instr M).effect? g t' =
        some (.enter t' branch.target) := by
      change Option.map _ g.blocks[branch.target]? = _
      rw [htarget, Option.map_some, hinputs, Store.setInputs_nil_left]
    rw [Branch.edge, h.apart.copies_eq, leave_copies, hpass, Option.bind_some]
    simp only [leave?, hjump]
  · rw [hwritten p hp, (h.value_move hblock hi hbranch hagree hsome hp).1]

/-- With the arguments of a branch in the staging registers, its target is entered
    as it should be. -/
theorem entered_of_staged (h : f.Lowerable staging n) {branch : Branch M} {target : Block M}
    (htarget : f.blocks[branch.target]? = some target)
    (hlen : branch.args.length = target.inputs.length) {s t : Store M} {values : List Int64}
    (hvalues : branch.args.mapM s.value? = some values)
    (hagree : s.AgreeOn (Register.Below n) t)
    (hstaged : ∀ p ∈ branch.moves f staging, t.regs (.virtual p.1) = s.value? p.2) :
    f.Entered staging n branch.target (s.setInputs target.inputs values) t := by
  have hinputs := inputsOf_eq htarget
  refine ⟨?_, fun r hr hnot => ?_, fun v hv => ?_⟩
  · rw [Store.slots_setInputs, hagree.slots]
  · rw [hinputs] at hnot
    rw [Store.regs_setInputs_of_not_mem s values hnot, hagree.regs r hr]
  · -- The input at some position gets the value of the argument there.
    rw [hinputs] at hv
    rcases List.getElem?_of_mem hv with ⟨k, hk⟩
    have hlt : k < branch.args.length := by
      rw [hlen]
      exact (List.getElem?_eq_some_iff.mp hk).1
    have hvalue := getElem?_of_mapM hvalues k
    rw [List.getElem?_eq_getElem hlt, Option.bind_some] at hvalue
    have hzip : (v, branch.args[k]) ∈ (f.inputsOf branch.target).zip branch.args := by
      rw [hinputs]
      refine List.mem_of_getElem? (i := k) ?_
      rw [List.getElem?_zip_eq_some]
      exact ⟨hk, List.getElem?_eq_getElem hlt⟩
    rw [hstaged (stageOf staging v, branch.args[k]) (Branch.mem_moves.mpr ⟨v, _, hzip, rfl⟩)]
    have hk' : k < values.length := by
      rw [length_of_mapM hvalues]
      exact hlt
    rw [List.getElem?_eq_getElem hk'] at hvalue
    have hzip' : (v, values[k]) ∈ target.inputs.zip values := by
      refine List.mem_of_getElem? (i := k) ?_
      rw [List.getElem?_zip_eq_some]
      exact ⟨hk, List.getElem?_eq_getElem hk'⟩
    have hnodup : target.inputs.Nodup := hinputs ▸ h.inputs.nodup branch.target
    rw [Store.regs_setInputs_of_mem s hnodup hzip', ← hvalue]

/-- The arguments of rerouted branches have values too. -/
theorem isSome_rerouted {contested : Nat → Bool} {look : Nat → Option (Block M)}
    {branches others : List (Branch M)}
    (hall : List.Forall₂ (Reroute f staging contested look) branches others) {t : Store M}
    (hsome : ∀ branch ∈ branches, ∀ u ∈ branch.args, (t.value? u).isSome) :
    ∀ branch ∈ others, ∀ u ∈ branch.args, (t.value? u).isSome := by
  intro other hother
  rcases exists_left_of_forall₂ hall hother with ⟨branch, hbranch, hroute⟩
  cases hroute with
  | plain _ => exact hsome _ hbranch
  | ahead _ _ => simp
  | detour _ _ _ _ => simp

/-- Block `c` of the function with copies, which has no inputs. -/
theorem exists_lowered (staging : Staging M) {c : Nat} {target : Block M}
    (htarget : f.blocks[c]? = some target) :
    ∃ block, (f.withCopies staging).blocks[c]? = some block ∧ block.inputs = [] := by
  rcases withCopies_of_block staging htarget with ⟨block, hblock, hlowers⟩
  exact ⟨block, hblock, hlowers.inputs⟩

/-- A taken branch and its rerouted form lead to the same block. -/
theorem taken_matches (h : f.Lowerable staging n) {block : Block M} (hblock : block ∈ f.blocks)
    {i : Instr M} (hi : i ∈ block.run) {branch other : Branch M} (hbranch : branch ∈ i.branches)
    (hroute : Reroute f staging block.contests (f.edge? staging) branch other) {s t : Store M}
    (hagree : s.AgreeOn (Register.Below n) t) (hsome : ∀ u ∈ branch.args, (s.value? u).isSome)
    (hstaged : branch.isAhead f block.contests = true →
      ∀ p ∈ branch.moves f staging, t.regs (.virtual p.1) = s.value? p.2) :
    ∃ s' t' d, Instr.goTo? f s (Instr.taken? s branch) = some (.enter s' branch.target) ∧
      Instr.goTo? (f.withCopies staging) t (Instr.taken? t other) = some (.enter t' d) ∧
      Matches (f.withCopies staging) (f.Arrived staging n)
        (some (.enter s' branch.target)) (some (.enter t' d)) := by
  rcases h.runnable.fits block hblock i hi branch hbranch with ⟨target, htarget, hlen⟩
  have hlt : branch.target < f.size := (List.getElem?_eq_some_iff.mp htarget).1
  rcases exists_lowered staging htarget with ⟨new, hnew, hempty⟩
  rcases Option.isSome_iff_exists.mp (isSome_mapM hsome) with ⟨values, hvalues⟩
  have hfirst : Instr.goTo? f s (Instr.taken? s branch) =
      some (.enter (s.setInputs target.inputs values) branch.target) := by
    rw [Instr.taken?, hvalues, Option.map_some, Instr.goTo?, htarget, Option.map_some]
  -- A branch without arguments enters a block that has no inputs.
  have hsecond : ∀ d e, (f.withCopies staging).blocks[d]? = some e → e.inputs = [] →
      Instr.goTo? (f.withCopies staging) t (Instr.taken? t ⟨d, []⟩) = some (.enter t d) := by
    intro d e hd he
    change Option.map _ (f.withCopies staging).blocks[d]? = _
    rw [hd, Option.map_some, he, Store.setInputs_nil_left]
  cases hroute with
  | plain hinputs =>
      -- Without inputs there are no arguments, so nothing has to be staged.
      have hmoves : branch.moves f staging = [] := by simp [Branch.moves, hinputs]
      have hargs : branch = ⟨branch.target, []⟩ := by
        have hnil : branch.args = [] := by
          rw [inputsOf_eq htarget] at hinputs
          exact List.length_eq_zero_iff.mp (by rw [hlen, hinputs]; rfl)
        rw [← hnil]
      refine ⟨_, t, branch.target, hfirst, ?_, .enter ⟨hlt, ?_⟩⟩
      · rw [hargs]
        exact hsecond _ new hnew hempty
      · exact h.entered_of_staged htarget hlen hvalues hagree (by simp [hmoves])
  | ahead hinputs hc =>
      have hahead : branch.isAhead f block.contests = true := by simp [Branch.isAhead, hinputs, hc]
      refine ⟨_, t, branch.target, hfirst, hsecond _ new hnew hempty, .enter ⟨hlt, ?_⟩⟩
      exact h.entered_of_staged htarget hlen hvalues hagree (hstaged hahead)
  | detour hinputs hc k hk =>
      -- The edge copies the arguments now that the branch is taken.
      have hk' := (edge_eq_some_iff.mp hk).2
      rcases h.leave_edge (g := f.withCopies staging) hblock hi hbranch hnew hempty hagree hsome
        with ⟨t', hleave, hagree', hstaged'⟩
      refine ⟨_, t, k, hfirst, hsecond k _ hk' rfl, .detour (t := t') (.direct ?_) ⟨hlt, ?_⟩⟩
      · rw [codeOf_eq hk']
        exact hleave
      · exact h.entered_of_staged htarget hlen hvalues hagree' hstaged'

section Terminator

variable (h : f.Lowerable staging n) {block : Block M} (hblock : block ∈ f.blocks)
  {i j : Instr M} (hi : i ∈ block.run)
  (hij : i.Rerouted f staging block.contests (f.edge? staging) j) {s t : Store M}
  (hagree : s.AgreeOn (Register.Below n) t)

include h hblock hi hij hagree

omit hij in
theorem value_leading {u : Operand M} (hu : u ∈ i.leading) : t.value? u = s.value? u :=
  h.value_arg hblock hi (Instr.mem_uses_iff.mpr (Or.inl hu)) hagree

/-- A return reads its first leading operand, which rerouting leaves alone. -/
theorem leave_return_matches (hret : i.op = .common .ret) (rest others : List (Instr M)) :
    Matches (f.withCopies staging) (f.Arrived staging n)
      (f.leave? s (i :: rest)) ((f.withCopies staging).leave? t (j :: others)) := by
  have hterm : i.isTerminator = true := Block.isTerminator_of_mem_run hi
  -- Both return the value of their first leading operand.
  have hzero : j.operand? t 0 = i.operand? s 0 := by
    rw [Instr.operand_zero, Instr.operand_zero, hij.leading]
    cases hhead : i.leading.head? with
    | none => rfl
    | some u => exact h.value_leading hblock hi hagree (List.mem_of_mem_head? hhead)
  simp only [leave?]
  rcases Instr.effect_of_terminator hterm f s with ⟨_, heff⟩ | ⟨hno, _⟩
  · rcases Instr.effect_of_terminator (hij.isTerminator.trans hterm) (f.withCopies staging) t with
      ⟨_, heff'⟩ | ⟨hno, _⟩
    · rw [heff, heff', hzero]
      cases i.operand? s 0 with
      | none => exact .fail
      | some x => exact .done x
    · exact absurd (hij.op.trans hret) hno
  · exact absurd hret hno

/-- A jump chooses the same position before and after, or goes on in both. -/
theorem leave_jump_matches (hjump : i.op ≠ .common .ret)
    (hsome : ∀ branch ∈ i.branches, ∀ u ∈ branch.args, (s.value? u).isSome)
    (hstaged : ∀ branch ∈ i.branches, branch.isAhead f block.contests = true →
      ∀ p ∈ branch.moves f staging, t.regs (.virtual p.1) = s.value? p.2)
    {rest others : List (Instr M)}
    (hrest : Matches (f.withCopies staging) (f.Arrived staging n)
      (f.leave? s rest) ((f.withCopies staging).leave? t others)) :
    Matches (f.withCopies staging) (f.Arrived staging n)
      (f.leave? s (i :: rest)) ((f.withCopies staging).leave? t (j :: others)) := by
  have hterm : i.isTerminator = true := Block.isTerminator_of_mem_run hi
  have hjump' : j.op ≠ .common .ret := fun hret => hjump (hij.op.symm.trans hret)
  have hvalue' : ∀ branch ∈ i.branches, ∀ u ∈ branch.args, (t.value? u).isSome := by
    intro branch hbranch u hu
    rw [h.value_arg hblock hi (arg_mem_uses hbranch hu) hagree]
    exact hsome branch hbranch u hu
  simp only [leave?]
  rw [Instr.effect_of_jump hterm hjump f hsome,
    Instr.effect_of_jump (hij.isTerminator.trans hterm) hjump' _
      (isSome_rerouted hij.branches hvalue'), hij.leading,
    mapM_congr fun u hu => h.value_leading hblock hi hagree hu]
  cases i.leading.mapM s.value? with
  | none => exact .fail
  | some leading =>
      rw [Option.bind_some, Option.bind_some, hij.chosen]
      cases i.chosen? leading with
      | none => exact .fail
      | some k =>
          rw [Option.bind_some, Option.bind_some]
          cases hk : i.branches[k]? with
          | none =>
              -- There is no such branch, before or after, and the next terminator decides.
              have hk' : j.branches[k]? = none := by
                rw [List.getElem?_eq_none_iff] at hk ⊢
                rw [← hij.branches.length_eq]
                exact hk
              rw [hk']
              exact hrest
          | some branch =>
              have hbranch := List.mem_of_getElem? hk
              rcases getElem?_of_forall₂ hij.branches hk with ⟨other, hother, hroute⟩
              rcases h.taken_matches hblock hi hbranch hroute hagree (hsome branch hbranch)
                (hstaged branch hbranch) with ⟨s', t', d, hgo, hgo', hmatch⟩
              rw [hother, Option.bind_some, Option.bind_some, hgo, hgo']
              exact hmatch

end Terminator

theorem run_matches (h : f.Lowerable staging n) {block : Block M} (hblock : block ∈ f.blocks)
    {run others : List (Instr M)} (hrun : ∀ i ∈ run, i ∈ block.run)
    (hall : List.Forall₂ (Instr.Rerouted f staging block.contests (f.edge? staging)) run others)
    {s t : Store M} (hagree : s.AgreeOn (Register.Below n) t)
    (hsome : ∀ i ∈ block.run, ∀ branch ∈ i.branches, ∀ u ∈ branch.args, (s.value? u).isSome)
    (hstaged : ∀ i ∈ block.run, ∀ branch ∈ i.branches, branch.isAhead f block.contests = true →
      ∀ p ∈ branch.moves f staging, t.regs (.virtual p.1) = s.value? p.2) :
    Matches (f.withCopies staging) (f.Arrived staging n)
      (f.leave? s run) ((f.withCopies staging).leave? t others) := by
  -- The stores stay as they are until one of the terminators is taken.
  induction hall with
  | nil => exact .fail
  | @cons i j rest others hij _ ih =>
      have hi : i ∈ block.run := hrun i (by simp)
      by_cases hret : i.op = .common .ret
      · exact h.leave_return_matches hblock hi hij hagree hret rest others
      · exact h.leave_jump_matches hblock hi hij hagree hret (hsome i hi) (hstaged i hi)
          (ih fun k hk => hrun k (by simp [hk]))

/-- The copies at the start of a block complete the inputs. -/
theorem fetch (h : f.Lowerable staging n) {g : Function M} {b : Nat} {s t : Store M}
    (hready : f.Ready b s) (hentered : f.Entered staging n b s t) :
    ∃ t', g.pass? t (fetchCopies staging (f.inputsOf b)) = some t' ∧
      s.AgreeOn (Register.Below n) t' := by
  rw [h.apart.fetchCopies_eq]
  have hmem : ∀ p ∈ (f.inputsOf b).map (fun v => (v, Operand.ofVReg (stageOf staging v))),
      p.1 ∈ f.inputsOf b ∧ p.2 = .ofVReg (stageOf staging p.1) := by
    intro p hp
    rcases List.mem_map.mp hp with ⟨v, hv, rfl⟩
    exact ⟨hv, rfl⟩
  have hstage : ∀ v ∈ f.inputsOf b,
      t.value? (.ofVReg (stageOf staging v)) = s.regs (.virtual v) := hentered.staged
  -- An input has an id in use and a staging register has not, so no copy reads an input.
  rcases pass_copies g _ t (fun p hp q hq heq => by
      rw [(hmem q hq).2, Operand.ofVReg, Operand.ofVReg, Operand.reg.injEq,
        Register.virtual.injEq] at heq
      rcases mem_inputsOf (hmem p hp).1 with ⟨block, hblock, hin⟩
      have hbelow := h.below p.1 (mem_registers_of_input (List.mem_of_getElem? hblock) hin)
      have habove := h.apart.stageOf_above (hmem q hq).1
      rw [heq] at habove
      omega) (fun p hp => by
      rw [(hmem p hp).2, hstage p.1 (hmem p hp).1]
      exact hready _ (Or.inl ⟨p.1, (hmem p hp).1, rfl⟩))
      (fun p hp q hq heq => by rw [(hmem p hp).2, (hmem q hq).2, heq])
    with ⟨t', hpass, hslots, hwritten, hkept⟩
  refine ⟨t', hpass, hslots.trans hentered.slots, fun r hr => ?_⟩
  by_cases hin : ∃ v ∈ f.inputsOf b, r = .virtual v
  · rcases hin with ⟨v, hv, rfl⟩
    rw [← hstage v hv]
    exact hwritten (v, .ofVReg (stageOf staging v)) (List.mem_map.mpr ⟨v, hv, rfl⟩)
  · have hnot : ∀ v ∈ f.inputsOf b, r ≠ .virtual v := fun v hv heq => hin ⟨v, hv, heq⟩
    rw [hkept r fun p hp => hnot p.1 (hmem p hp).1, hentered.old r hr hnot]

/-- The stays of the two functions in a block match. -/
theorem stay_matches (h : f.Lowerable staging n) {b : Nat} (hb : b < f.size) {s t : Store M}
    (hready : f.Ready b s) (hentered : f.Entered staging n b s t) :
    Matches (f.withCopies staging) (f.Arrived staging n) (f.leave? s (f.codeOf b))
      ((f.withCopies staging).leave? t ((f.withCopies staging).codeOf b)) := by
  have hsome : f.blocks[b]? = some f.blocks[b] := List.getElem?_eq_getElem hb
  generalize f.blocks[b] = block at hsome
  have hblock := List.mem_of_getElem? hsome
  rcases withCopies_of_block staging hsome with ⟨new, hnew, hlowers⟩
  rcases hlowers.code with ⟨run, hall, hcode⟩
  have hbody := h.runnable.regular_body hblock
  have hterm := h.runnable.straight_body hblock
  have hreads : ∀ i ∈ block.body, ∀ r ∈ i.reads, r.Below n := fun i hi r hr =>
    h.below_of_read hblock (Block.mem_code_iff.mpr (Or.inl hi)) hr
  -- The new block fetches its inputs, passes the old body, stages what its branches
  -- pass on, and leaves through the rerouted run.
  rcases h.fetch (g := f.withCopies staging) hready hentered with ⟨t₁, hfetch, hagree₁⟩
  rw [codeOf_eq hsome, codeOf_eq hnew, hcode, h.runnable.leave_eq hblock, List.append_assoc,
    List.append_assoc, ← inputsOf_eq hsome, h.apart.fetchCopies_eq, leave_copies,
    ← h.apart.fetchCopies_eq, hfetch, Option.bind_some, leave_append hbody hterm]
  rcases pass_agree (f := f) (g := f.withCopies staging) hbody hterm hreads hagree₁ with
    ⟨hfail, hfail'⟩ | ⟨s₂, t₂, hpass, hpass', hagree₂⟩
  · rw [hfail, hfail']
    exact .fail
  · have hargs : ∀ i ∈ block.run, ∀ branch ∈ i.branches, ∀ u ∈ branch.args,
        (s₂.value? u).isSome := fun i hi branch hbranch u hu =>
      h.isSome_arg hsome hready hpass hi hbranch hu
    rcases h.stage_ahead (g := f.withCopies staging) hblock hagree₂ hargs with
      ⟨t₃, hstage, hagree₃, hstaged⟩
    rw [hpass, hpass', Option.bind_some, Option.bind_some, h.apart.copiesAhead_eq, leave_copies,
      ← h.apart.copiesAhead_eq, hstage, Option.bind_some]
    exact h.run_matches hblock (fun i hi => hi) hall hagree₃ hargs hstaged

/-- A function and the one with copies return the same values. -/
theorem returns_iff (h : f.Lowerable staging n) (hentry : f.inputsOf 0 = []) {x : Int64} :
    f.Returns x ↔ (f.withCopies staging).Returns x := by
  by_cases hempty : f.blocks = []
  · -- Without blocks there is nothing to lower, and the functions are the same.
    have hsame : f.withCopies staging = f := by
      unfold withCopies
      rw [hempty]
      simp only [lowerBlocks, List.append_nil]
      rw [← hempty]
    rw [hsame]
  · have hpos : 0 < f.size := List.length_pos_iff.mpr hempty
    refine returns_iff_of_matches
      (R := fun b s t => f.Arrived staging n b s t ∧ f.Ready b s)
      ⟨⟨hpos, rfl, fun _ _ _ => rfl, by simp [hentry]⟩, ready_empty hentry⟩ ?_
    intro b s t hrel
    refine (h.stay_matches hrel.1.1 hrel.2 hrel.1.2).imp fun c s' t' hleave hrel' => ?_
    exact ⟨hrel', (hrel.2.enter h.runnable hleave).1⟩

end Lowerable

end Function

/-- A copy, an addition, a subtraction or a multiplication with one result, or a
    jump or a return with none. -/
def Instr.Basic (i : Instr M) : Prop :=
  match i.op with
  | .common .copy | .common .add | .common .sub | .common .mul => i.defs.length = 1
  | .common .jmp | .common .jnz | .common .ret => i.defs = []
  | _ => False

theorem Instr.Basic.regular {i : Instr M} (h : i.Basic) : i.Regular := by
  obtain ⟨op, defs, uses⟩ := i
  cases op with
  | native o => exact absurd h id
  | common o =>
      -- An instruction that computes has one result, a terminator has none.
      have hone : defs.length = 1 → ∃ d, defs = [d] := fun hlen => List.length_eq_one_iff.mp hlen
      cases o with
      | copy =>
          rcases hone h with ⟨d, rfl⟩
          exact .copy d uses
      | add =>
          rcases hone h with ⟨d, rfl⟩
          exact .arith .add (by simp) d uses
      | sub =>
          rcases hone h with ⟨d, rfl⟩
          exact .arith .sub (by simp) d uses
      | mul =>
          rcases hone h with ⟨d, rfl⟩
          exact .arith .mul (by simp) d uses
      | jmp =>
          have hnil : defs = [] := h
          exact hnil ▸ .terminator .jmp rfl uses
      | jnz =>
          have hnil : defs = [] := h
          exact hnil ▸ .terminator .jnz rfl uses
      | ret =>
          have hnil : defs = [] := h
          exact hnil ▸ .terminator .ret rfl uses
      | _ => exact absurd h id

/-- A register, a constant or a block. -/
def Operand.IsPlain : Operand M → Prop
  | .reg _ | .imm _ | .block _ => True
  | .frame _ _ | .global _ => False

/-- Neither a physical register nor anything in memory. -/
def Operand.IsValue : Operand M → Prop
  | .reg r => r.isVirtual = true
  | .imm _ => True
  | .block _ => True
  | .frame _ _ => False
  | .global _ => False

theorem Operand.IsValue.isPlain {u : Operand M} (h : u.IsValue) : u.IsPlain := by
  cases u <;> trivial

namespace Function

variable {f : Function M}

theorem SingleAssignment.runnable (h : f.SingleAssignment)
    (hbasic : ∀ i ∈ f.instructions, i.Basic) : f.Runnable where
  terminated := h.terminated
  regular _ hblock i hi := (hbasic i (mem_instructions hblock hi)).regular
  fits _ hblock _ hi _ hbranch := h.fits_run hblock hi hbranch

/-- In single assignment form, virtual arguments are written before they are needed. -/
theorem SingleAssignment.argsReady (h : f.SingleAssignment) (hone : f.OneClass)
    (hplain : ∀ i ∈ f.instructions, ∀ u ∈ i.uses, u.IsPlain)
    (hphysical : ∀ block ∈ f.blocks, ∀ i ∈ block.run, ∀ branch ∈ i.branches, ∀ p,
      .reg (.physical p) ∈ branch.args → block.Defines (.physical p)) : f.ArgsReady := by
  intro b block hb i hi branch hbranch u hu
  have hmem := List.mem_of_getElem? hb
  have hcode : i ∈ block.code := Block.mem_code_iff.mpr (Or.inr hi)
  have huses := Lowerable.arg_mem_uses hbranch hu
  have hkind := hplain i (mem_instructions hmem hcode) u huses
  cases u with
  | imm x => exact Or.inl ⟨x, rfl⟩
  | reg r =>
      refine Or.inr ⟨r, rfl, ?_⟩
      cases r with
      | physical p => exact Or.inl (hphysical block hmem i hi branch hbranch p hu)
      -- Written above in the block, or on every walk to it.
      | virtual v =>
          rcases List.getElem?_of_mem hcode with ⟨k, hk⟩
          rcases h.strict hone v b block k i hb hk (Instr.mem_reads.mpr huses) with hbefore | havail
          · exact Or.inl (defines_of_definesBefore hbefore)
          · exact Or.inr havail
  | block c => exact absurd (Instr.block_eq_none_of_mem_args hbranch hu) (by simp [Operand.block?])
  | frame slot offset => exact absurd hkind id
  | global name => exact absurd hkind id

/-- Replacing inputs by copies succeeds and keeps what a function returns. -/
theorem lowerInputs_returns_iff {supply : Supply} (hcheck : f.check = .ok ())
    (hentry : f.inputsOf 0 = []) (hone : f.OneClass)
    (hfresh : supply.FreshFor f (f.staging supply).length)
    (hbasic : ∀ i ∈ f.instructions, i.Basic)
    (hvalues : ∀ i ∈ f.instructions, ∀ u ∈ i.uses, u.IsValue) :
    ∃ g rest, f.lowerInputs supply = .ok (g, rest) ∧ ∀ x, f.Returns x ↔ g.Returns x := by
  have hssa := SingleAssignment.of_check hcheck
  rcases exists_apart_staging (hssa.missingArgument_eq_none hentry) hfresh with ⟨n, hbelow, hapart⟩
  -- Arguments are values, so none of them is a physical register.
  have hphysical : ∀ block ∈ f.blocks, ∀ i ∈ block.run, ∀ branch ∈ i.branches, ∀ p,
      .reg (.physical p) ∈ branch.args → block.Defines (.physical p) := by
    intro block hblock i hi branch hbranch p hp
    have hmem := mem_instructions hblock (Block.mem_code_iff.mpr (Or.inr hi))
    have hvalue := hvalues i hmem _ (Lowerable.arg_mem_uses hbranch hp)
    exact absurd hvalue (by simp [Operand.IsValue, Register.isVirtual])
  have hargs := hssa.argsReady hone (fun i hi u hu => (hvalues i hi u hu).isPlain) hphysical
  have hlower : f.Lowerable (f.staging supply) n :=
    ⟨hssa.runnable hbasic, hssa.inputsApart, hbelow, hapart, hargs⟩
  exact ⟨_, _, hssa.lowerInputs_eq_ok hentry, fun x => hlower.returns_iff hentry⟩

/-- A loop that carries two values through inputs. -/
def sumOfFour : Function flat :=
  (Sample.sum (M := flat) (FlatClass.mk 3) 4 ⟨0, 0⟩).1

theorem sumOfFour_lowerInputs :
    ∃ g rest, sumOfFour.lowerInputs ⟨7, 0⟩ = .ok (g, rest) ∧
      ∀ x, sumOfFour.Returns x ↔ g.Returns x := by
  refine lowerInputs_returns_iff (by decide) rfl (by decide) (by decide) ?_ ?_
  · simp [sumOfFour, Sample.sum, instructions, Sample.assign, Sample.perform, Instr.Basic]
  · simp [sumOfFour, Sample.sum, instructions, Sample.assign, Sample.perform, Operand.IsValue,
      Operand.ofVReg, Register.isVirtual]

end Function

end RegisterColoring
