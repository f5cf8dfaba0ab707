import RegisterColoring.Machine.Flat
import RegisterColoring.Proofs.LoweredRuns
import RegisterColoring.Proofs.PlacedRuns

/-!
# Runs of Compiled Functions

A compilation puts copies in place of inputs, spills register after register and
places what is left. Each of these steps keeps the value that a function returns, and
leaves a function from which the next one can start. What ties them together are the
ids: new registers and slots have to be different from all that are in use, which they
are as long as the counters of the supply do not wrap around.

How many registers a compilation draws can be read off its result, because a function
has no reloads to begin with and each drawn register that is not for an input is the
result of a reload.

## Main definitions

* `Function.reloadCount`: The number of reloads in a function.
* `Workspace.Allocates`: The rounds of an allocation.
* `Workspace.Continues`: The supply goes on above all ids in use.

## Theorems

* `Function.reloadCount_spill`: A spill draws a register for each reload it adds.
* `allocateRounds_step`: What one round does.
* `allocates_of_rounds`: An allocation that succeeds goes through rounds.
* `Workspace.Continues.spill`: What a spill preserves.
* `Workspace.Allocates.returns`: The rounds of an allocation keep the returned value.
* `Function.compile_returns`: Compiled functions return what they did.
-/

namespace RegisterColoring

variable {M : Machine}

def Instr.isReload (i : Instr M) : Bool :=
  decide (i.op = .common .reload)

/-- The number of reloads in a function. -/
def Function.reloadCount (f : Function M) : Nat :=
  f.instructions.countP Instr.isReload

theorem isReload_readInstead (i : Instr M) (v w : VReg M) :
    (i.readInstead v w).isReload = i.isReload :=
  decide_eq_decide.mpr Iff.rfl

namespace Function

variable {f : Function M}

/-- A spill draws a register for each reload that it adds. -/
theorem reloadCount_spill {v : VReg M} {supply : Supply} {s : Spill M}
    (h : f.spill v supply = .ok s) : s.func.reloadCount = f.reloadCount + s.reloads.length := by
  have hadded : (s.reloads.countP fun id => (reloadFrom s.slot ⟨id, v.cls⟩).isReload) =
      s.reloads.length :=
    List.countP_eq_length.mpr fun _ _ => decide_eq_true rfl
  have hcount := countP_spill h (isReload_readInstead · v) rfl
  rw [hadded] at hcount
  exact hcount

theorem reloadCount_place (graph : Interference M) (colors : Assignment M) :
    (f.place graph colors).reloadCount = f.reloadCount := by
  unfold reloadCount instructions place
  rw [List.flatMap_map, List.countP_flatMap, List.countP_flatMap]
  refine congrArg List.sum (List.map_congr_left fun b _ => ?_)
  exact List.countP_map

/-- The slots of a spilled function are those from before and the new one. -/
theorem SpillsTo.slot_cases {slot : Slot} {v : VReg M} {Fresh : VReg M → Prop}
    {g : Function M} (h : f.SpillsTo slot v Fresh g) {j : Instr M} (hj : j ∈ g.instructions)
    {k : Nat} (hk : j.slot? = some k) : (∃ i ∈ f.instructions, i.slot? = some k) ∨ k = slot.id := by
  rcases List.mem_flatMap.mp hj with ⟨c, hc, hj⟩
  rcases exists_left_of_forall₂ h.blocks hc with ⟨b, hb, hspills⟩
  cases hspills.spilledFrom hj with
  | kept hi => exact Or.inl ⟨j, mem_instructions hb hi, hk⟩
  | @changed i hi w _ =>
      rw [Instr.slot_rename (i.uses_readInstead w)] at hk
      exact Or.inl ⟨i, mem_instructions hb hi, hk⟩
  | reload _ => exact Or.inr (Option.some.inj hk).symm
  | save _ _ => exact Or.inr (Option.some.inj hk).symm

end Function

namespace Workspace

/-- Rounds that move registers to the given slots, one after the other, and then place
    all registers. -/
inductive Allocates : Workspace M → List Slot → Workspace M → Prop where
  | placed {w : Workspace M} {l : Liveness M} {colors : Assignment M}
      (hl : w.func.liveness = .ok l) (hcolors : l.interference.color = .ok (.complete colors)) :
      Allocates w [] { w with func := w.func.place l.interference colors }
  | spilled {w out : Workspace M} {l : Liveness M} {v : VReg M} {s : Spill M} {slots : List Slot}
      (hl : w.func.liveness = .ok l) (hspill : w.func.spill v w.supply = .ok s)
      (rest : Allocates ⟨s.func, s.supply⟩ slots out) : Allocates w (s.slot :: slots) out

/-- The function can be allocated, its ids of registers and slots are below `m` and `k`,
    and that is where the supply goes on. -/
structure Continues (w : Workspace M) (m k : Nat) : Prop extends
    w.func.Numbered w.supply m where
  workable : w.func.Workable
  frames : ∀ i ∈ w.func.instructions, ∀ j, i.slot? = some j → j < k
  slots : w.supply.slots % Supply.capacity = k % Supply.capacity

end Workspace

/-- What a round that finds something comes from. -/
theorem Function.round_eq_ok {f : Function M} {excluded : List Nat} {r : Round M}
    (h : f.round excluded = .ok r) :
    ∃ l, f.liveness = .ok l ∧
      ((∃ colors, l.interference.color = .ok (.complete colors) ∧
          r = .placed (f.place l.interference colors)) ∨
        ∃ blames v, selectSpill f.name l.interference l blames excluded = .ok v ∧
          r = .mustSpill v) := by
  unfold Function.round at h
  cases hl : f.liveness with
  | error cause => simp [hl] at h
  | ok l =>
      refine ⟨l, rfl, ?_⟩
      simp only [hl] at h
      cases hcolor : l.interference.color with
      | error cause => simp [hcolor] at h
      | ok coloring =>
          simp only [hcolor] at h
          cases coloring with
          | complete colors =>
              simp only [Except.ok.injEq] at h
              exact Or.inl ⟨colors, rfl, h.symm⟩
          -- Without a complete coloring there is a register to spill.
          | stuck blames =>
              cases hselect : selectSpill f.name l.interference l blames excluded with
              | error cause => simp [hselect, Except.map] at h
              | ok v =>
                  simp only [hselect, Except.map, Except.ok.injEq] at h
                  exact Or.inr ⟨blames, v, hselect, h.symm⟩

/-- What the first round of an allocation does: it fails and changes nothing, it places all
    registers, or it spills one and leaves the rest to the others. -/
theorem allocateRounds_step (w : Workspace M) (excluded : List Nat) (done : Summary)
    (budget : Nat) :
    (∃ cause, allocateRounds w excluded done budget = ⟨.error cause, w⟩) ∨
      (∃ l colors, w.func.liveness = .ok l ∧ l.interference.color = .ok (.complete colors) ∧
        allocateRounds w excluded done budget = ⟨.ok { done with rounds := done.rounds + 1 },
          { w with func := w.func.place l.interference colors }⟩) ∨
      ∃ l v s rest, w.func.liveness = .ok l ∧ w.func.round excluded = .ok (.mustSpill v) ∧
        w.func.spill v w.supply = .ok s ∧ budget = rest + 1 ∧
          allocateRounds w excluded done budget =
            allocateRounds ⟨s.func, s.supply⟩ (v.id :: (s.reloads ++ excluded))
              ⟨done.rounds + 1, done.spilled ++ [v.id], done.slots ++ [s.slot]⟩ rest := by
  cases hround : w.func.round excluded with
  | error cause => exact Or.inl ⟨cause, by rw [allocateRounds, hround]⟩
  | ok r =>
      rcases Function.round_eq_ok hround with ⟨l, hl, ⟨colors, hcolors, rfl⟩ | ⟨_, v, _, rfl⟩⟩
      · exact Or.inr (Or.inl ⟨l, colors, hl, hcolors, by rw [allocateRounds, hround]⟩)
      · cases budget with
        | zero => exact Or.inl ⟨.exhausted w.func.name, by rw [allocateRounds, hround]⟩
        | succ rest =>
            cases hspill : w.func.spill v w.supply with
            | error cause =>
                refine Or.inl ⟨.unsupported cause, ?_⟩
                rw [allocateRounds, hround]
                simp only [hspill]
            | ok s =>
                refine Or.inr (Or.inr ⟨l, v, s, rest, hl, rfl, hspill, rfl, ?_⟩)
                rw [allocateRounds, hround]
                simp only [hspill]

/-- An allocation that succeeds goes through rounds. -/
theorem allocates_of_rounds {w : Workspace M} {excluded : List Nat} {done summary : Summary}
    {budget : Nat} (h : (allocateRounds w excluded done budget).result = .ok summary) :
    ∃ slots, w.Allocates slots (allocateRounds w excluded done budget).workspace ∧
      summary.slots = done.slots ++ slots := by
  -- Every round that spills leaves a smaller budget.
  induction budget using Nat.strongRecOn generalizing w excluded done with
  | _ budget ih =>
      rcases allocateRounds_step w excluded done budget with ⟨cause, hout⟩ |
        ⟨l, colors, hl, hcolors, hout⟩ | ⟨l, v, s, rest, hl, _, hspill, hb, hout⟩
      · rw [hout] at h
        exact absurd h (by simp)
      · rw [hout] at h ⊢
        exact ⟨[], .placed hl hcolors, by rw [← Except.ok.inj h, List.append_nil]⟩
      · rw [hout] at h ⊢
        rcases ih rest (by omega) h with ⟨slots, hallocates, hslots⟩
        refine ⟨s.slot :: slots, .spilled hl hspill hallocates, ?_⟩
        rw [hslots, List.append_assoc]
        rfl

/-- Rounds only add reloads. -/
theorem reloadCount_le_allocateRounds (w : Workspace M) (excluded : List Nat) (done : Summary)
    (budget : Nat) :
    w.func.reloadCount ≤ (allocateRounds w excluded done budget).workspace.func.reloadCount := by
  induction budget using Nat.strongRecOn generalizing w excluded done with
  | _ budget ih =>
      rcases allocateRounds_step w excluded done budget with ⟨cause, hout⟩ |
        ⟨l, colors, _, _, hout⟩ | ⟨l, v, s, rest, _, _, hspill, hb, hout⟩
      · exact Nat.le_of_eq (by rw [hout])
      · rw [hout]
        exact Nat.le_of_eq (Function.reloadCount_place _ _).symm
      · have hrest := ih rest (by omega) ⟨s.func, s.supply⟩ (v.id :: (s.reloads ++ excluded))
          ⟨done.rounds + 1, done.spilled ++ [v.id], done.slots ++ [s.slot]⟩
        rw [Function.reloadCount_spill hspill] at hrest
        rw [hout]
        omega

namespace Workspace

namespace Continues

variable {w : Workspace M} {m k : Nat}

theorem slot_eq (h : w.Continues m k) (hk : k < Supply.capacity) (size : Nat) :
    (w.supply.slot size).id = k := by
  rw [Supply.slot, h.slots, Nat.mod_eq_of_lt hk]

variable {v : VReg M} {s : Spill M}

/-- A spill leaves a workspace to go on with. -/
theorem spill (h : w.Continues m k) (hspill : w.func.spill v w.supply = .ok s)
    (hm : m + s.reloads.length ≤ Supply.capacity) (hk : k < Supply.capacity) :
    Continues ⟨s.func, s.supply⟩ (m + s.reloads.length) (k + 1) := by
  have hspills := Function.spillsTo_of_spill hspill (h.freshFor hm)
  have hslot := (Function.spill_eq_ok hspill).1
  refine ⟨h.toNumbered.spill h.workable.tractable.inputs hspill hm, h.workable.spill hspills,
    fun i hi j hj => ?_, ?_⟩
  · rcases hspills.slot_cases hi hj with ⟨i', hi', hold⟩ | hnew
    · have hlt := h.frames i' hi' j hold
      omega
    · rw [hnew, hslot, h.slot_eq hk]
      omega
  · exact Function.slots_spill hspill h.slots

/-- A spill keeps the returned value. -/
theorem returns_spill (h : w.Continues m k) (hspill : w.func.spill v w.supply = .ok s)
    (hm : m + s.reloads.length ≤ Supply.capacity) (hk : k < Supply.capacity) {x : Int64}
    (hx : w.func.Returns x) : s.func.Returns x := by
  have hspills := Function.spillsTo_of_spill hspill (h.freshFor hm)
  refine h.workable.returns_spill hspills (fun i hi heq => ?_) hx
  have hlt := h.frames i hi _ heq
  rw [(Function.spill_eq_ok hspill).1, h.slot_eq hk] at hlt
  omega

end Continues

namespace Allocates

variable {w out : Workspace M} {slots : List Slot}

theorem exists_liveness (h : w.Allocates slots out) : ∃ l, w.func.liveness = .ok l := by
  cases h with
  | placed hl _ => exact ⟨_, hl⟩
  | spilled hl _ _ => exact ⟨_, hl⟩

theorem reloadCount_le (h : w.Allocates slots out) :
    w.func.reloadCount ≤ out.func.reloadCount := by
  induction h with
  | placed _ _ => exact Nat.le_of_eq (Function.reloadCount_place _ _).symm
  | spilled _ hspill _ ih =>
      rw [Function.reloadCount_spill hspill] at ih
      omega

/-- The rounds of an allocation keep the returned value. -/
theorem returns (h : w.Allocates slots out) (hM : M.Disjoint) {m k : Nat} (hw : w.Continues m k)
    (hm : m + out.func.reloadCount ≤ Supply.capacity + w.func.reloadCount)
    (hk : k + slots.length ≤ Supply.capacity) {x : Int64} (hx : w.func.Returns x) :
    out.func.Returns x := by
  induction h generalizing m k with
  | placed hl hcolors =>
      exact hw.workable.returns_place (hw.workable.keepsApart_place hM hl hcolors) hx
  | spilled hl hspill rest ih =>
      have hcount := Function.reloadCount_spill hspill
      have hle := rest.reloadCount_le
      simp only [List.length_cons] at hk hle
      have hx' := hw.returns_spill hspill (by omega) (by omega) hx
      refine ih (hw.spill hspill (by omega) (by omega)) ?_ (by omega) hx'
      simp only [hcount]
      omega

end Allocates

end Workspace

namespace Function

/-- If the counter does not wrap around, the staging registers come right after the ids
    in use. -/
theorem SingleAssignment.stages {f : Function M} (h : f.SingleAssignment) (hf : f.Runnable)
    {supply : Supply} (hids : f.IdsBelow supply.registers)
    (hfound : f.missingArgument? (f.staging supply) = none)
    (hregs : supply.registers + (f.staging supply).length ≤ Supply.capacity) :
    f.Stages (f.staging supply) supply.registers := by
  have hregId : ∀ k < (f.staging supply).length, supply.regId k = supply.registers + k := by
    intro k hk
    rw [Supply.regId, Nat.mod_eq_of_lt (by omega)]
  refine ⟨h, fun b hb i hi => hf.defs_of_run hb hi, hids, ?_⟩
  refine apart_staging hfound (fun j hj k hk heq => ?_) fun k hk => ?_
  · rw [hregId j hj, hregId k hk] at heq
    omega
  · rw [hregId k hk]
    omega

/-- The function with copies goes on above the ids of the staging registers. -/
theorem Stages.continues {f : Function M} {supply : Supply}
    (h : f.Stages (f.staging supply) supply.registers) (hf : f.Runnable) (hone : f.OneClass)
    (hentry : f.inputsOf 0 = []) (hplain : ∀ i ∈ f.instructions, ∀ u ∈ i.uses, u.IsPlain)
    (hregs : supply.registers + (f.staging supply).length ≤ Supply.capacity) :
    Workspace.Continues ⟨f.withCopies (f.staging supply),
      supply.afterRegs (f.staging supply).length⟩
      (supply.registers + (f.staging supply).length) supply.slots where
  workable := h.workable hf hone hentry
  ids := by
    refine h.idsBelow (Nat.le_add_right _ _) fun c v hv => ?_
    rcases staging_lookup (h.apart.lookup_stageOf hv) with ⟨k, w, hk, _, heq⟩
    have hlt : k < (f.staging supply).length := by
      rw [length_staging]
      exact (List.getElem?_eq_some_iff.mp hk).1
    rw [heq]
    simp only [Supply.regId]
    rw [Nat.mod_eq_of_lt (by omega)]
    omega
  frames i hi j hj := by
    rcases List.mem_flatMap.mp hi with ⟨e, he, hi⟩
    rw [h.slot_eq_none hplain e he i hi] at hj
    exact absurd hj (by simp)
  registers := Nat.mod_mod _ _
  slots := rfl

theorem remainingInput_eq_none {f : Function M} (hin : ∀ b ∈ f.blocks, b.inputs = []) :
    f.remainingInput? = none := by
  refine List.findSome?_eq_none_iff.mpr fun entry hentry => ?_
  simp [hin entry.1 (List.fst_mem_of_mem_zipIdx hentry)]

theorem inputs_of_remainingInput {f : Function M} (h : f.remainingInput? = none) :
    ∀ b ∈ f.blocks, b.inputs = [] := by
  intro b hb
  rcases List.getElem?_of_mem hb with ⟨n, hn⟩
  have hnone := List.findSome?_eq_none_iff.mp h (b, n) (List.mem_zipIdx_iff_getElem?.mpr hn)
  simpa using hnone

/-- An allocation that succeeds has nothing to do or goes through rounds. -/
theorem allocate_cases {f : Function M} {supply : Supply} {summary : Summary}
    (h : (f.allocate supply).result = .ok summary) :
    (f.hasVirtual = false ∧ (f.allocate supply).workspace.func = f) ∨
      (Workspace.mk f supply).Allocates summary.slots (f.allocate supply).workspace := by
  unfold allocate at h ⊢
  split
  · rename_i hvirtual
    rw [if_pos hvirtual] at h
    cases hinput : f.remainingInput? with
    | some cause => simp [hinput] at h
    | none =>
        simp only [hinput] at h ⊢
        -- The first round starts with an empty summary.
        rcases allocates_of_rounds h with ⟨slots, hallocates, hslots⟩
        rw [hslots]
        exact Or.inr hallocates
  · rename_i hvirtual
    exact Or.inl ⟨by simpa using hvirtual, rfl⟩

/-- The steps of a compilation that succeeds. -/
theorem compile_cases {f : Function M} {supply : Supply} {summary : Summary}
    (h : (f.compile {} supply).result = .ok summary) :
    f.check = .ok () ∧ ∃ g rest, f.lowerInputs supply = .ok (g, rest) ∧
      (g.allocate rest).result = .ok summary ∧
        (f.compile {} supply).workspace = (g.allocate rest).workspace := by
  unfold compile at h ⊢
  cases hcheck : f.check with
  | error cause => simp [checkIf, hcheck, Except.mapError] at h
  | ok u =>
      refine ⟨rfl, ?_⟩
      cases hlower : f.lowerInputs supply with
      | error cause => simp [checkIf, lowerIf, hcheck, hlower, Except.mapError] at h
      | ok lowered =>
          obtain ⟨g, rest⟩ := lowered
          refine ⟨g, rest, rfl, ?_⟩
          simp only [checkIf, lowerIf, hcheck, hlower, Except.mapError, if_true] at h ⊢
          cases hresult : (g.allocate rest).result with
          | error cause => simp [hresult] at h
          | ok found =>
              simp only [hresult] at h ⊢
              exact ⟨h, trivial⟩

/-- Compiled functions return what they did. The ids in use are below the counter, and
    neither the registers drawn for inputs and reloads nor the slots make a counter
    wrap around. -/
theorem compile_returns {f : Function flat} {supply : Supply} {summary : Summary}
    (hentry : f.inputsOf 0 = []) (hone : f.OneClass) (hbasic : ∀ i ∈ f.instructions, i.Basic)
    (hplain : ∀ i ∈ f.instructions, ∀ u ∈ i.uses, u.IsPlain)
    (hids : f.IdsBelow supply.registers)
    (hok : (f.compile {} supply).result = .ok summary)
    (hregs : supply.registers + (f.staging supply).length +
      (f.compile {} supply).workspace.func.reloadCount ≤ Supply.capacity)
    (hslots : supply.slots + summary.slots.length ≤ Supply.capacity) {x : Int64}
    (hx : f.Returns x) : (f.compile {} supply).workspace.func.Returns x := by
  have hM : flat.Disjoint := fun _ _ h => h
  rcases compile_cases hok with ⟨hcheck, g, rest, hlower, hresult, hout⟩
  have hssa := SingleAssignment.of_check hcheck
  have hrunnable := hssa.runnable hbasic
  rcases lowerInputs_eq_ok_iff.mp hlower with ⟨_, _, hfound, rfl, rfl⟩
  have hstages := hssa.stages hrunnable hids hfound (by omega)
  rw [hout] at hregs ⊢
  rcases allocate_cases hresult with ⟨hvirtual, hfunc⟩ | hallocates
  · -- Without virtual registers there was nothing to analyse.
    rw [hfunc]
    refine hstages.returns hrunnable hone hentry hplain hM (fun h => ?_) hx
    rw [hvirtual] at h
    exact absurd h (by simp)
  · have hlowered := hstages.returns hrunnable hone hentry hplain hM
      (fun _ => hallocates.exists_liveness) hx
    have hcontinues := hstages.continues hrunnable hone hentry hplain (by omega)
    exact hallocates.returns hM hcontinues (by omega) hslots hlowered

/-- A loop that carries more values than it has registers for. -/
def sumInTwo : Function flat :=
  (Sample.sum (M := flat) (FlatClass.mk 2) 4 ⟨0, 0⟩).1

theorem sumInTwo_compile :
    (sumInTwo.compile {} ⟨7, 0⟩).result = .ok ⟨4, [7, 4, 8], [⟨0, 8⟩, ⟨1, 8⟩, ⟨2, 8⟩]⟩ ∧
      sumInTwo.Returns 10 ∧ (sumInTwo.compile {} ⟨7, 0⟩).workspace.func.Returns 10 := by
  have hok : (sumInTwo.compile {} ⟨7, 0⟩).result =
      .ok ⟨4, [7, 4, 8], [⟨0, 8⟩, ⟨1, 8⟩, ⟨2, 8⟩]⟩ := by decide +kernel
  have hreturns : sumInTwo.Returns 10 := ⟨40, by decide +kernel⟩
  refine ⟨hok, hreturns, compile_returns rfl (by decide) ?_ ?_ (by decide) hok
    (by decide +kernel) (by decide) hreturns⟩
  · simp [sumInTwo, Sample.sum, instructions, Sample.assign, Sample.perform, Instr.Basic]
  · simp [sumInTwo, Sample.sum, instructions, Sample.assign, Sample.perform, Operand.IsPlain,
      Operand.ofVReg]

end Function

end RegisterColoring
