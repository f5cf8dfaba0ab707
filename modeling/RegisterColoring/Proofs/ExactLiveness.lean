import RegisterColoring.Machine.Flat
import RegisterColoring.Proofs.InputsAsCopies
import RegisterColoring.Proofs.Spilled

/-!
# Exact Liveness

The analysis follows simple paths and repairs what it misses with a fixpoint over
loops. On arbitrary code that is not liveness: a register written in two places can
be found dead where it is live. It is exact on the functions that allocation
analyses, which start in single assignment form and change only when inputs become
copies and when registers are spilled.

## Main definitions

* `Function.Derived`: The functions that allocation analyses.

## Theorems

* `Function.Derived.tractable`: They stay tractable from pass to pass.
* `Function.Derived.liveness_exact`: Their live registers and ranges are those of dataflow.
-/

namespace RegisterColoring

variable {M : Machine}

namespace Function

/-- A checked function whose terminators write no register, with its inputs replaced by
    copies and any number of registers spilled. All ids that are drawn on the way are
    above the ids in use. -/
inductive Derived : Function M → Prop where
  | lowered {f g : Function M} {supply rest : Supply} (hcheck : f.check = .ok ())
      (hquiet : ∀ i ∈ f.instructions, i.isTerminator = true → i.defs = [])
      (hfresh : supply.FreshFor f (f.staging supply).length)
      (hlower : f.lowerInputs supply = .ok (g, rest)) : Derived g
  | spilled {g : Function M} (h : Derived g) {v : VReg M} {supply : Supply} {s : Spill M}
      (hspill : g.spill v supply = .ok s) (hfresh : supply.FreshFor g s.reloads.length) :
      Derived s.func

/-- The analysis is exact after each pass. -/
theorem Derived.tractable {g : Function M} (h : g.Derived) : g.Tractable := by
  induction h with
  | lowered hcheck hquiet hfresh hlower =>
      rcases lowerInputs_eq_ok_iff.mp hlower with ⟨_, _, hfound, rfl, _⟩
      rcases exists_apart_staging hfound hfresh with ⟨n, hbelow, hapart⟩
      refine (Stages.mk (.of_check hcheck) (fun b hb i hi => ?_) hbelow hapart).tractable
      exact hquiet i (mem_instructions hb (Block.mem_code_iff.mpr (Or.inr hi)))
        (Block.isTerminator_of_mem_run hi)
  | spilled _ hspill hfresh ih => exact ih.spill (spillsTo_of_spill hspill hfresh)

/-- A written register is reported live into exactly the blocks from which some path
    reads it before a write, and its ranges, each once, are those from its writes and
    from the blocks it is live into to the last reads of the values. -/
theorem Derived.liveness_exact {g : Function M} (h : g.Derived) {l : Liveness M}
    (hl : g.liveness = .ok l) {v : VReg M} (hdef : ∃ c, g.Defines c (.virtual v)) :
    (∀ b < g.size, .virtual v ∈ l.liveIn[b]?.getD [] ↔ g.LiveInto (.virtual v) b) ∧
      (∀ b start stop, ⟨b, start, stop⟩ ∈ l.rangesOf (.virtual v) ↔
        g.HasRange (.virtual v) b start stop) ∧
        (l.rangesOf (.virtual v)).Nodup := by
  rcases hdef with ⟨c, hc⟩
  have htrack := h.tractable.trackable hc
  have hin := h.tractable.inputs
  rw [rangesOf_eq hl hin ⟨c, hc⟩]
  refine ⟨fun b hb => ?_, fun b start stop => htrack.mem_vregRanges, htrack.nodup_vregRanges⟩
  rw [mem_liveIn_iff hl hin ⟨c, hc⟩ hb]
  exact htrack.liveInto_iff hb

/-- The loop of `sumOfFour` with its inputs as copies. -/
def copiedSum : Function flat :=
  sumOfFour.withCopies (sumOfFour.staging ⟨7, 0⟩)

/-- The loop counter of `copiedSum`, spilled. -/
def spilledCounter : Except Unsupported (Spill flat) :=
  copiedSum.spill ⟨3, FlatClass.mk 3⟩ ⟨10, 0⟩

/-- The staging register of the running total is written before the loop and in it. -/
theorem spilledCounter_liveness :
    ∃ s l, spilledCounter = .ok s ∧ s.func.liveness = .ok l ∧
      s.func.Defines 0 (.virtual ⟨7, FlatClass.mk 3⟩) ∧
      s.func.Defines 1 (.virtual ⟨7, FlatClass.mk 3⟩) ∧
      (∀ b < s.func.size, .virtual ⟨7, FlatClass.mk 3⟩ ∈ l.liveIn[b]?.getD [] ↔
        s.func.LiveInto (.virtual ⟨7, FlatClass.mk 3⟩) b) ∧
      (∀ b start stop, ⟨b, start, stop⟩ ∈ l.rangesOf (.virtual ⟨7, FlatClass.mk 3⟩) ↔
        s.func.HasRange (.virtual ⟨7, FlatClass.mk 3⟩) b start stop) ∧
      (l.rangesOf (.virtual ⟨7, FlatClass.mk 3⟩)).Nodup := by
  have hlower : sumOfFour.lowerInputs ⟨7, 0⟩ = .ok (copiedSum, ⟨10, 0⟩) := by decide
  have hcopied : copiedSum.Derived := .lowered (by decide) (by decide) (by decide) hlower
  have hfacts : ∃ s ∈ spilledCounter.toOption, s.reloads.length = 2 ∧
      s.func.liveness.toOption.isSome ∧ s.func.Defines 0 (.virtual ⟨7, FlatClass.mk 3⟩) ∧
        s.func.Defines 1 (.virtual ⟨7, FlatClass.mk 3⟩) := by decide
  rcases hfacts with ⟨s, hs, hreloads, hlive, hfirst, hsecond⟩
  have hspill : copiedSum.spill ⟨3, FlatClass.mk 3⟩ ⟨10, 0⟩ = .ok s := by
    cases hcase : spilledCounter with
    | error cause => rw [hcase] at hs; exact absurd hs (by simp [Except.toOption])
    | ok s' =>
        rw [hcase, Except.toOption, Option.mem_some_iff] at hs
        exact hs ▸ hcase
  have hfresh : Supply.FreshFor ⟨10, 0⟩ copiedSum s.reloads.length := by
    rw [hreloads]
    decide
  cases hl : s.func.liveness with
  | error cause => rw [hl] at hlive; exact absurd hlive (by simp [Except.toOption])
  | ok l =>
      exact ⟨s, l, hspill, hl, hfirst, hsecond,
        (hcopied.spilled hspill hfresh).liveness_exact hl ⟨0, hfirst⟩⟩

end Function

end RegisterColoring
