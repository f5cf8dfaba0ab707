import RegisterColoring.Proofs.SpillingSuffices

/-!
# The Number of Rounds

An allocation goes on until a round fails or places all registers. Said without a budget,
this is a relation, and what has to be shown is that the rounds end. Every spill adds
registers to the function, so the function grows from round to round; but the ids of the
new registers are excluded at once, whether or not they were in use before. A register
that a round offers is therefore one of the function that the allocation was given, and
no id is offered twice. The budget is the number of its ids, so it is never the budget that
ends an allocation.

## Main definitions

* `Workspace.Rounds`: The rounds of an allocation, as many as it takes.
* `Function.EndsAfter`: An allocation that ends after a number of rounds.
* `Function.Offers`: What every round can spill.
* `Summary.Consistent`: What a summary says about the rounds.

## Theorems

* `Function.Offers.spill`: What a spill preserves.
* `Function.Offers.exists_rounds`: The rounds end within the budget.
* `Workspace.Rounds.registers`, `Workspace.Rounds.slots`: The registers and slots of all
  spills.
* `Function.endsAfter_allocate`: Allocations end, with a consistent summary.
-/

namespace RegisterColoring

variable {M : Machine}

/-- The rounds of an allocation, as many as it takes. The list holds what they spill, one
    register after the other, with what each spill changed. The last round fails, cannot
    spill the register it finds, or places all registers. -/
inductive Workspace.Rounds : Workspace M → List Nat → List (VReg M × Spill M) →
    Except Error Unit → Workspace M → Prop where
  | failed {w : Workspace M} {excluded : List Nat} {cause : Error}
      (hround : w.func.round excluded = .error cause) : Rounds w excluded [] (.error cause) w
  | refused {w : Workspace M} {excluded : List Nat} {v : VReg M} {cause : Unsupported}
      (hround : w.func.round excluded = .ok (.mustSpill v))
      (hspill : w.func.spill v w.supply = .error cause) :
      Rounds w excluded [] (.error (.unsupported cause)) w
  | placed {w : Workspace M} {excluded : List Nat} {func : Function M}
      (hround : w.func.round excluded = .ok (.placed func)) :
      Rounds w excluded [] (.ok ()) { w with func }
  | spilled {w out : Workspace M} {excluded : List Nat} {v : VReg M} {s : Spill M}
      {spills : List (VReg M × Spill M)} {ending : Except Error Unit}
      (hround : w.func.round excluded = .ok (.mustSpill v))
      (hspill : w.func.spill v w.supply = .ok s)
      (rest : Rounds ⟨s.func, s.supply⟩ (v.id :: (s.reloads ++ excluded)) spills ending out) :
      Rounds w excluded ((v, s) :: spills) ending out

/-- The summary after more spills and a last round. -/
def Summary.add (done : Summary) (spills : List (VReg M × Spill M)) : Summary where
  rounds := done.rounds + spills.length + 1
  spilled := done.spilled ++ spills.map fun entry => entry.1.id
  slots := done.slots ++ spills.map fun entry => entry.2.slot

namespace Function

/-- The number of different ids of virtual registers. -/
def idCount (f : Function M) : Nat :=
  ((f.registers.filterMap Register.virtual?).map VReg.id).toFinset.card

/-- An allocation that ends after a number of rounds. There is none if the function has
    nothing to allocate or still has inputs. -/
inductive EndsAfter (f : Function M) (supply : Supply) :
    Nat → List (VReg M × Spill M) → Outcome M → Prop where
  | nothing (hnone : ∀ v, .virtual v ∉ f.registers) :
      EndsAfter f supply 0 [] ⟨.ok {}, ⟨f, supply⟩⟩
  | rejected {v : VReg M} {cause : Unsupported} (hv : .virtual v ∈ f.registers)
      (hinput : f.remainingInput? = some cause) :
      EndsAfter f supply 0 [] ⟨.error (.unsupported cause), ⟨f, supply⟩⟩
  | rounds {v : VReg M} {spills : List (VReg M × Spill M)} {ending : Except Error Unit}
      {out : Workspace M} (hv : .virtual v ∈ f.registers) (hinput : f.remainingInput? = none)
      (hrounds : Workspace.Rounds ⟨f, supply⟩ [] spills ending out) :
      EndsAfter f supply (spills.length + 1) spills
        ⟨ending.map fun _ => Summary.add {} spills, out⟩

/-- The register that a round finds is one of the function and not excluded. -/
theorem mem_of_mustSpill {f : Function M} (hin : ∀ b ∈ f.blocks, b.inputs = [])
    {excluded : List Nat} {v : VReg M} (h : f.round excluded = .ok (.mustSpill v)) :
    .virtual v ∈ f.registers ∧ v.id ∉ excluded := by
  rcases round_eq_ok h with ⟨l, hl, ⟨_, _, heq⟩ | ⟨_, u, hselect, heq⟩⟩
  · exact absurd heq (by simp)
  · obtain rfl := Round.mustSpill.inj heq
    rcases selectSpill_eq_ok hselect with ⟨n, _, hmem, hid⟩
    exact ⟨mem_registers_of_mem_regs hin hl hmem, hid⟩

/-- Whatever `g` has beside the registers of `f` is excluded, and `g` has no inputs. -/
structure Offers (f g : Function M) (excluded : List Nat) : Prop where
  inputs : ∀ b ∈ g.blocks, b.inputs = []
  known : ∀ v, .virtual v ∈ g.registers → .virtual v ∈ f.registers ∨ v.id ∈ excluded

namespace Offers

variable {f g : Function M} {excluded : List Nat} {v : VReg M}

/-- A spill excludes the ids that it adds. -/
theorem spill (h : f.Offers g excluded) {supply : Supply} {s : Spill M}
    (hspill : g.spill v supply = .ok s) :
    f.Offers s.func (v.id :: (s.reloads ++ excluded)) where
  inputs := inputs_of_blocks (blocks_of_spill hspill) h.inputs
  known u hu := by
    rcases mem_registers_of_blocks (blocks_of_spill hspill) h.inputs hu with hold | ⟨w, hw, heq⟩
    · -- What was excluded stays so.
      rcases h.known u hold with hmem | hid
      · exact Or.inl hmem
      · exact Or.inr (List.mem_cons_of_mem _ (List.mem_append_right _ hid))
    · obtain rfl := Register.virtual.inj heq
      exact Or.inr (List.mem_cons_of_mem _ (List.mem_append_left _ hw.1))

/-- A round finds a register of the function at the start, with an id that is not excluded. -/
theorem of_mustSpill (h : f.Offers g excluded) (hround : g.round excluded = .ok (.mustSpill v)) :
    .virtual v ∈ f.registers ∧ v.id ∉ excluded := by
  rcases mem_of_mustSpill h.inputs hround with ⟨hv, hid⟩
  rcases h.known v hv with hmem | hexcluded
  · exact ⟨hmem, hid⟩
  · exact absurd hexcluded hid

/-- With a budget for the ids that are not excluded, the rounds end. -/
theorem exists_rounds {w : Workspace M} {free : List Nat} {budget : Nat} (done : Summary)
    (h : f.Offers w.func excluded)
    (hfree : ∀ v, .virtual v ∈ f.registers → v.id ∉ excluded → v.id ∈ free)
    (hbudget : free.length ≤ budget) :
    ∃ spills ending out, w.Rounds excluded spills ending out ∧ spills.length ≤ budget ∧
      allocateRounds w excluded done budget = ⟨ending.map fun _ => done.add spills, out⟩ := by
  -- Every round that spills leaves a smaller budget.
  induction budget using Nat.strongRecOn generalizing w excluded free done with
  | _ budget ih =>
      cases hround : w.func.round excluded with
      | error cause =>
          refine ⟨[], _, _, .failed hround, Nat.zero_le _, ?_⟩
          rw [allocateRounds, hround]
          rfl
      | ok r =>
          cases r with
          | placed func =>
              refine ⟨[], _, _, .placed hround, Nat.zero_le _, ?_⟩
              rw [allocateRounds, hround]
              simp [Except.map, Summary.add]
          | mustSpill v =>
              rcases h.of_mustSpill hround with ⟨hv, hid⟩
              have hmem := hfree v hv hid
              -- The budget is not used up, because this id has not been spilled yet.
              obtain ⟨rest, rfl⟩ : ∃ rest, budget = rest + 1 :=
                Nat.exists_eq_add_one.mpr (Nat.lt_of_lt_of_le (List.length_pos_of_mem hmem) hbudget)
              cases hspill : w.func.spill v w.supply with
              | error cause =>
                  refine ⟨[], _, _, .refused hround hspill, Nat.zero_le _, ?_⟩
                  rw [allocateRounds, hround]
                  simp only [hspill]
                  rfl
              | ok s =>
                  have hfree' : ∀ u, .virtual u ∈ f.registers →
                      u.id ∉ v.id :: (s.reloads ++ excluded) → u.id ∈ free.erase v.id := by
                    intro u hu huid
                    simp only [List.mem_cons, List.mem_append, not_or] at huid
                    exact (List.mem_erase_of_ne huid.1).mpr (hfree u hu huid.2.2)
                  have hlength : (free.erase v.id).length ≤ rest := by
                    rw [List.length_erase_of_mem hmem]
                    omega
                  rcases ih rest (by omega) (w := ⟨s.func, s.supply⟩)
                    ⟨done.rounds + 1, done.spilled ++ [v.id], done.slots ++ [s.slot]⟩
                    (h.spill hspill) hfree' hlength with ⟨spills, ending, out, hrounds, hle, hout⟩
                  refine ⟨(v, s) :: spills, ending, out, .spilled hround hspill hrounds,
                    Nat.succ_le_succ hle, ?_⟩
                  rw [allocateRounds, hround]
                  simp only [hspill, hout]
                  simp [Summary.add, Nat.add_assoc, Nat.add_comm]

end Offers

end Function

namespace Workspace.Rounds

variable {w out : Workspace M} {excluded : List Nat} {spills : List (VReg M × Spill M)}
  {ending : Except Error Unit}

/-- All spilled registers are those of the function at the start, and no later one has the
    id of an earlier one or of its reloads. -/
theorem registers {f : Function M} (h : w.Rounds excluded spills ending out)
    (hf : f.Offers w.func excluded) :
    (∀ entry ∈ spills, .virtual entry.1 ∈ f.registers ∧ entry.1.id ∉ excluded) ∧
      spills.Pairwise fun earlier later =>
        earlier.1.id ≠ later.1.id ∧ later.1.id ∉ earlier.2.reloads := by
  induction h with
  | failed _ => simp
  | refused _ _ => simp
  | placed _ => simp
  | spilled hround hspill rest ih =>
      rcases ih (hf.spill hspill) with ⟨hmem, hpairs⟩
      refine ⟨fun entry hentry => ?_, List.pairwise_cons.mpr ⟨fun entry hentry => ?_, hpairs⟩⟩
      · rcases List.mem_cons.mp hentry with rfl | hentry
        · exact hf.of_mustSpill hround
        · rcases hmem entry hentry with ⟨hreg, hid⟩
          simp only [List.mem_cons, List.mem_append, not_or] at hid
          exact ⟨hreg, hid.2.2⟩
      · -- The spilled id and those of its reloads are excluded from now on.
        have hid := (hmem entry hentry).2
        simp only [List.mem_cons, List.mem_append, not_or] at hid
        exact ⟨Ne.symm hid.1, hid.2.1⟩

/-- The slots are numbered on from the counter, and each fits its register. -/
theorem slots (h : w.Rounds excluded spills ending out) {k : Nat}
    (hk : w.supply.slots % Supply.capacity = k % Supply.capacity) :
    (spills.map fun entry => entry.2.slot.id) =
        (List.range' k spills.length).map (· % Supply.capacity) ∧
      ∀ entry ∈ spills, entry.2.slot.size = Machine.spillSize entry.1.cls := by
  induction h generalizing k with
  | failed _ => simp
  | refused _ _ => simp
  | placed _ => simp
  | spilled hround hspill rest ih =>
      have hslot := (Function.spill_eq_ok hspill).1
      rcases ih (Function.slots_spill hspill hk) with ⟨hids, hsizes⟩
      refine ⟨?_, fun entry hentry => ?_⟩
      · rw [List.map_cons, List.length_cons, List.range'_succ, List.map_cons, hids, hslot]
        exact congrArg (· :: _) hk
      · rcases List.mem_cons.mp hentry with rfl | hentry
        · rw [hslot]
          rfl
        · exact hsizes entry hentry

end Workspace.Rounds

/-- What a summary says about the rounds of an allocation of `f`. -/
structure Summary.Consistent (f : Function M) (supply : Supply)
    (spills : List (VReg M × Spill M)) (summary : Summary) : Prop where
  rounds : summary.rounds = summary.spilled.length + 1
  slots : summary.slots.length = summary.spilled.length
  distinct : summary.spilled.Nodup
  /-- The spills are those of the rounds, and none has the id of an earlier reload. -/
  spilled : summary.spilled = spills.map fun entry => entry.1.id
  reloads : spills.Pairwise fun earlier later => later.1.id ∉ earlier.2.reloads
  /-- The slots are numbered on from the counter, which wraps around. -/
  ids : summary.slots.map Slot.id =
    (List.range' supply.slots summary.spilled.length).map (· % Supply.capacity)
  /-- A spilled id is one of the function, and its slot fits a class that it has there. -/
  sizes : List.Forall₂ (fun id slot => ∃ c, .virtual ⟨id, c⟩ ∈ f.registers ∧
    slot.size = Machine.spillSize c) summary.spilled summary.slots

namespace Function

variable {f : Function M}

theorem length_vregIds (f : Function M) : f.vregIds.length = f.idCount := by
  have hnodup : f.vregIds.Nodup := by
    have htrans : ∀ a b c, below a b = true → below b c = true → below a c = true := by
      simp only [below, decide_eq_true_eq]
      omega
    refine (pairwise_ascending htrans _).imp fun h => ?_
    rw [below, decide_eq_true_eq] at h
    exact Nat.ne_of_lt h
  rw [← List.toFinset_card_of_nodup hnodup]
  refine congrArg Finset.card (Finset.ext fun id => ?_)
  rw [List.mem_toFinset, List.mem_toFinset]
  exact mem_ascending below_apart

theorem hasVirtual_iff : f.hasVirtual = true ↔ ∃ v, .virtual v ∈ f.registers := by
  unfold hasVirtual
  rw [List.any_eq_true]
  constructor
  · rintro ⟨r, hr, hvirtual⟩
    cases r with
    | virtual v => exact ⟨v, hr⟩
    | physical p => exact absurd hvirtual (by simp [Register.isVirtual])
  · rintro ⟨v, hv⟩
    exact ⟨_, hv, rfl⟩

/-- Rounds that start from a function without inputs have a consistent summary. -/
theorem consistent_of_rounds {supply : Supply} {spills : List (VReg M × Spill M)}
    {ending : Except Error Unit} {out : Workspace M} (hin : ∀ b ∈ f.blocks, b.inputs = [])
    (h : Workspace.Rounds ⟨f, supply⟩ [] spills ending out) :
    Summary.Consistent f supply spills (Summary.add {} spills) := by
  have hoffers : f.Offers f [] := ⟨hin, fun v hv => Or.inl hv⟩
  rcases h.registers hoffers with ⟨hmem, hpairs⟩
  rcases h.slots rfl with ⟨hids, hsizes⟩
  refine ⟨?_, ?_, ?_, rfl, hpairs.imp And.right, ?_, ?_⟩
  · simp [Summary.add]
  · simp [Summary.add]
  · exact List.pairwise_map.mpr (hpairs.imp And.left)
  · simp only [Summary.add, List.nil_append, List.map_map, List.length_map]
    exact hids
  · simp only [Summary.add, List.nil_append]
    rw [List.forall₂_map_left_iff, List.forall₂_map_right_iff, List.forall₂_same]
    exact fun entry hentry => ⟨entry.1.cls, (hmem entry hentry).1, hsizes entry hentry⟩

/-- Every allocation ends after at most one round more than the function has ids, and if it
    succeeds with something to allocate, its summary is consistent. -/
theorem endsAfter_allocate (f : Function M) (supply : Supply) :
    ∃ rounds spills, f.EndsAfter supply rounds spills (f.allocate supply) ∧
      rounds ≤ f.idCount + 1 ∧
      ∀ summary, (f.allocate supply).result = .ok summary → 1 ≤ f.idCount →
        summary.rounds = rounds ∧ summary.Consistent f supply spills := by
  unfold allocate
  by_cases hvirtual : f.hasVirtual = true
  · rw [if_pos hvirtual]
    rcases hasVirtual_iff.mp hvirtual with ⟨v, hv⟩
    cases hinput : f.remainingInput? with
    | some cause =>
        refine ⟨0, [], .rejected hv hinput, Nat.zero_le _, fun summary hok => ?_⟩
        exact absurd hok (by simp)
    | none =>
        have hin := inputs_of_remainingInput hinput
        have hoffers : f.Offers f [] := ⟨hin, fun v hv => Or.inl hv⟩
        -- To begin with, every id of the function can be spilled.
        have hfree : ∀ u, .virtual u ∈ f.registers → u.id ∉ [] → u.id ∈ f.vregIds := by
          intro u hu _
          refine (mem_ascending below_apart).mpr (List.mem_map.mpr ⟨u, ?_, rfl⟩)
          exact Register.mem_virtuals.mpr hu
        rcases hoffers.exists_rounds (w := ⟨f, supply⟩) {} hfree (Nat.le_refl _) with
          ⟨spills, ending, out, hrounds, hle, hout⟩
        rw [length_vregIds] at hle
        rw [hout]
        refine ⟨spills.length + 1, spills, .rounds hv hinput hrounds, Nat.succ_le_succ hle,
          fun summary hok _ => ?_⟩
        cases ending with
        | error cause => exact absurd hok (by simp [Except.map])
        | ok _ =>
            obtain rfl := Except.ok.inj hok
            exact ⟨by simp [Summary.add], consistent_of_rounds hin hrounds⟩
  · rw [if_neg hvirtual]
    have hnone : ∀ v, .virtual v ∉ f.registers := fun v hv => hvirtual (hasVirtual_iff.mpr ⟨v, hv⟩)
    refine ⟨0, [], .nothing hnone, Nat.zero_le _, fun summary _ hd => ?_⟩
    -- A function without virtual registers has no ids.
    rcases Finset.card_pos.mp hd with ⟨id, hid⟩
    rcases List.mem_map.mp (List.mem_toFinset.mp hid) with ⟨v, hv, _⟩
    exact absurd (Register.mem_virtuals.mp hv) (hnone v)

/-- Reloads take ids that are in use, and the slots start with the last one. -/
theorem threeInTwo_endsAfter :
    threeInTwo.idCount = 5 ∧ (threeInTwo.allocate ⟨3, 4294967295⟩).result =
        .ok ⟨4, [0, 1, 2], [⟨4294967295, 8⟩, ⟨0, 8⟩, ⟨1, 8⟩]⟩ ∧
      ∃ spills, threeInTwo.EndsAfter ⟨3, 4294967295⟩ 4 spills
          (threeInTwo.allocate ⟨3, 4294967295⟩) ∧
        Summary.Consistent threeInTwo ⟨3, 4294967295⟩ spills
          ⟨4, [0, 1, 2], [⟨4294967295, 8⟩, ⟨0, 8⟩, ⟨1, 8⟩]⟩ := by
  have hok : (threeInTwo.allocate ⟨3, 4294967295⟩).result =
      .ok ⟨4, [0, 1, 2], [⟨4294967295, 8⟩, ⟨0, 8⟩, ⟨1, 8⟩]⟩ := by decide +kernel
  rcases endsAfter_allocate threeInTwo ⟨3, 4294967295⟩ with ⟨rounds, spills, hends, _, hall⟩
  rcases hall _ hok (by decide) with ⟨rfl, hconsistent⟩
  exact ⟨by decide, hok, spills, hends, hconsistent⟩

end Function

end RegisterColoring
