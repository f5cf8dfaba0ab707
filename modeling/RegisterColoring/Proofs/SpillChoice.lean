import RegisterColoring.Proofs.Blamed
import RegisterColoring.Proofs.BoundedRanges
import RegisterColoring.Proofs.CompleteColoring

/-!
# The Register to Spill

Which register is spilled is settled by a comparison: the one that is worth most, and of
several that are worth the same, the lowest. The blames may be listed in any order, as the
registers of the blamed nodes are compared with each other and nothing else.

A register is worth the number of times its node was blamed, for each instruction from its
earliest start to its latest end in a block, summed over the blocks. Tied registers share a
node and its count, but each has ranges of its own. No register is in two nodes, so the
count is that of one entry in the list.

## Main definitions

* `Eligible`: A register that may be spilled, with the count of its node.
* `Liveness.worth`: What spilling a register is worth.
* `Chosen`: The register that should be spilled.
* `Function.ChoosesSpill`: The selection answers what it should.

## Theorems

* `Chosen.unique`: At most one register should be spilled.
* `Function.selectSpill_eq_ok_iff`: The selection finds it.
* `Function.choosesSpill_of_liveness`: The selection, for every list of blames.
-/

namespace RegisterColoring

variable {M : Machine}

/-- Register `v` may be spilled: a node that was blamed `count` times holds it, and its id is
    not excluded. -/
def Eligible (g : Interference M) (blames : List (Nat × Nat)) (excluded : List Nat) (v : VReg M)
    (count : Nat) : Prop :=
  ∃ n, (n, count) ∈ blames ∧ .virtual v ∈ g.regs n ∧ v.id ∉ excluded

/-- What spilling a register is worth whose node was blamed `count` times. -/
noncomputable def Liveness.worth (l : Liveness M) (v : VReg M) (count : Nat) : Nat :=
  count * ∑ b ∈ ((l.rangesOf (.virtual v)).map LiveRange.block).toFinset,
    (LiveRange.latest (l.rangesOf (.virtual v)) b -
      LiveRange.earliest (l.rangesOf (.virtual v)) b + 1)

/-- Register `v` is worth most of those that may be spilled, and the lowest that is worth so
    much. -/
structure Chosen (l : Liveness M) (blames : List (Nat × Nat)) (excluded : List Nat) (v : VReg M)
    (count : Nat) : Prop where
  eligible : Eligible l.interference blames excluded v count
  most : ∀ w k, Eligible l.interference blames excluded w k → l.worth w k ≤ l.worth v count
  lowest : ∀ w k, Eligible l.interference blames excluded w k → l.worth w k = l.worth v count →
    w = v ∨ v.before w = true

theorem mem_spillCandidates_iff {g : Interference M} {l : Liveness M} {blames : List (Nat × Nat)}
    {excluded : List Nat} {a : Candidate M} :
    a ∈ spillCandidates g l blames excluded ↔ ∃ count, Eligible g blames excluded a.reg count ∧
      a.cost = count * extent (l.rangesOf (.virtual a.reg)) := by
  constructor
  · intro ha
    rcases List.mem_flatMap.mp ha with ⟨⟨n, count⟩, hn, ha⟩
    rcases List.mem_map.mp ha with ⟨v, hv, rfl⟩
    rw [List.mem_filter, Register.mem_virtuals] at hv
    exact ⟨count, ⟨n, hn, hv.1, by simpa using hv.2⟩, rfl⟩
  · intro ha
    rcases ha with ⟨count, ⟨n, hn, hv, hid⟩, hcost⟩
    refine List.mem_flatMap.mpr ⟨(n, count), hn, List.mem_map.mpr ⟨a.reg, ?_, ?_⟩⟩
    · rw [List.mem_filter, Register.mem_virtuals]
      exact ⟨hv, by simpa using hid⟩
    · rw [← hcost]

section Unique

variable {l : Liveness M} {blames : List (Nat × Nat)} {excluded : List Nat}

/-- Of two registers that should be spilled, neither is worth more and neither is lower. -/
theorem Chosen.unique {v w : VReg M} {count k : Nat} (hv : Chosen l blames excluded v count)
    (hw : Chosen l blames excluded w k) : v = w := by
  have hle := hv.most w k hw.eligible
  have hge := hw.most v count hv.eligible
  rcases hv.lowest w k hw.eligible (by omega) with rfl | hvw
  · rfl
  · rcases hw.lowest v count hv.eligible (by omega) with rfl | hwv
    · rfl
    · have hself := VReg.before_trans v w v hvw hwv
      rw [VReg.before_irrefl] at hself
      exact absurd hself (by simp)

/-- Only the entries of the list count, not their order. -/
theorem eligible_perm {g : Interference M} {others : List (Nat × Nat)}
    (h : others.Perm blames) {v : VReg M} {count : Nat} :
    Eligible g others excluded v count ↔ Eligible g blames excluded v count :=
  exists_congr fun _ => and_congr_left fun _ => h.mem_iff

theorem Chosen.perm {others : List (Nat × Nat)} (h : others.Perm blames) {v : VReg M}
    {count : Nat} (hv : Chosen l blames excluded v count) : Chosen l others excluded v count := by
  refine ⟨(eligible_perm h).mpr hv.eligible, fun w k hw => ?_, fun w k hw => ?_⟩
  · exact hv.most w k ((eligible_perm h).mp hw)
  · exact hv.lowest w k ((eligible_perm h).mp hw)

end Unique

namespace Function

variable {f : Function M} {l : Liveness M} {blames : List (Nat × Nat)} {excluded : List Nat}
  {name : String} (hl : f.liveness = .ok l)

include hl

theorem worth_eq (v : VReg M) (count : Nat) :
    l.worth v count = count * extent (l.rangesOf (.virtual v)) := by
  rw [(wellRanged hl).counted (.virtual v)]
  rfl

/-- A register is in one node, which has one count. -/
theorem eligible_count_unique (hkeys : (blames.map Prod.fst).Nodup) {v : VReg M} {k k' : Nat}
    (h : Eligible l.interference blames excluded v k)
    (h' : Eligible l.interference blames excluded v k') : k = k' := by
  rcases h with ⟨n, hn, hv, _⟩
  rcases h' with ⟨m, hm, hv', _⟩
  rcases Liveness.exists_group_of_mem_regs hv with ⟨group, hgroup, hmem⟩
  rcases Liveness.exists_group_of_mem_regs hv' with ⟨group', hgroup', hmem'⟩
  obtain rfl := group_unique hl hgroup hmem hgroup' hmem' (.refl _)
  exact (Prod.mk.inj (List.inj_on_of_nodup_map hkeys hn hm rfl)).2

/-- The selection gives the register that should be spilled. -/
theorem chosen_of_selectSpill {v : VReg M}
    (h : selectSpill name l.interference l blames excluded = .ok v) :
    ∃ count, Chosen l blames excluded v count := by
  rw [selectSpill_eq] at h
  split at h
  · exact absurd h (by simp)
  · cases hbest : Candidate.best? (spillCandidates l.interference l blames excluded) with
    | none =>
        rw [hbest] at h
        exact absurd h (by simp)
    | some a =>
        rw [hbest] at h
        simp only [Except.ok.injEq] at h
        subst h
        have hfound := Candidate.isBest_of_best hbest
        rcases mem_spillCandidates_iff.mp hfound.mem with ⟨count, hv, hcost⟩
        rw [← worth_eq hl] at hcost
        -- Whatever else may be spilled is a candidate, and not a better one.
        have hothers : ∀ w k, Eligible l.interference blames excluded w k →
            l.worth w k ≤ l.worth a.reg count ∧
              (l.worth w k = l.worth a.reg count → w = a.reg ∨ a.reg.before w = true) := by
          intro w k hw
          have hmem : ⟨w, l.worth w k⟩ ∈ spillCandidates l.interference l blames excluded :=
            mem_spillCandidates_iff.mpr ⟨k, hw, worth_eq hl w k⟩
          have hnot := Candidate.le_of_not_better (hfound.not_better _ hmem)
          rw [hcost] at hnot
          exact hnot
        exact ⟨count, hv, fun w k hw => (hothers w k hw).1, fun w k hw => (hothers w k hw).2⟩

section Existing

variable (hnodes : ∀ n ∈ blames.map Prod.fst, n < l.interference.size)

include hnodes

omit hl in
theorem exists_selectSpill_of_eligible (name : String) {v : VReg M} {count : Nat}
    (h : Eligible l.interference blames excluded v count) :
    ∃ w, selectSpill name l.interference l blames excluded = .ok w := by
  rcases h with ⟨n, hn, hv, hid⟩
  exact exists_selectSpill name l hnodes ⟨n, List.mem_map.mpr ⟨_, hn, rfl⟩, v, hv, hid⟩

theorem selectSpill_eq_ok_iff {v : VReg M} :
    selectSpill name l.interference l blames excluded = .ok v ↔
      ∃ count, Chosen l blames excluded v count := by
  constructor
  · exact chosen_of_selectSpill hl
  · intro h
    rcases h with ⟨count, hv⟩
    rcases exists_selectSpill_of_eligible hnodes name hv.eligible with ⟨w, hw⟩
    rcases chosen_of_selectSpill hl hw with ⟨k, hchosen⟩
    rw [hw, hchosen.unique hv]

omit hl in
theorem selectSpill_eq_exhausted_iff :
    selectSpill name l.interference l blames excluded = .error (.exhausted name) ↔
      ∀ v count, ¬ Eligible l.interference blames excluded v count := by
  constructor
  · intro h v count hv
    rcases exists_selectSpill_of_eligible hnodes name hv with ⟨w, hw⟩
    rw [h] at hw
    exact absurd hw (by simp)
  · intro h
    have hnil : spillCandidates l.interference l blames excluded = [] := by
      refine List.eq_nil_iff_forall_not_mem.mpr fun a ha => ?_
      rcases mem_spillCandidates_iff.mp ha with ⟨count, hv, _⟩
      exact h a.reg count hv
    rw [selectSpill_of_nodes name l hnodes, hnil]
    rfl

/-- The selection does not depend on the order in which the blames are listed. -/
theorem selectSpill_perm {others : List (Nat × Nat)} (hperm : others.Perm blames) :
    selectSpill name l.interference l others excluded =
      selectSpill name l.interference l blames excluded := by
  have hothers : ∀ n ∈ others.map Prod.fst, n < l.interference.size :=
    fun n hn => hnodes n ((hperm.map Prod.fst).mem_iff.mp hn)
  by_cases hsome : ∃ v count, Eligible l.interference blames excluded v count
  · rcases hsome with ⟨v, count, hv⟩
    rcases exists_selectSpill_of_eligible hnodes name hv with ⟨w, hw⟩
    rcases (selectSpill_eq_ok_iff hl hnodes).mp hw with ⟨k, hchosen⟩
    rw [hw, selectSpill_eq_ok_iff hl hothers]
    exact ⟨k, hchosen.perm hperm⟩
  · push Not at hsome
    rw [(selectSpill_eq_exhausted_iff hnodes).mpr hsome,
      selectSpill_eq_exhausted_iff hothers]
    exact fun v count hv => hsome v count ((eligible_perm hperm).mp hv)

end Existing

end Function

/-- The selection of a register to spill answers what it should. -/
structure Function.ChoosesSpill (f : Function M) (l : Liveness M) (blames : List (Nat × Nat))
    (excluded : List Nat) : Prop where
  /-- A register has one count, that of its node. -/
  count : ∀ v k k', Eligible l.interference blames excluded v k →
    Eligible l.interference blames excluded v k' → k = k'
  exhausted : selectSpill f.name l.interference l blames excluded = .error (.exhausted f.name) ↔
    ∀ v k, ¬ Eligible l.interference blames excluded v k
  found : (∃ v k, Eligible l.interference blames excluded v k) →
    ∃ v, selectSpill f.name l.interference l blames excluded = .ok v
  chosen : ∀ v, selectSpill f.name l.interference l blames excluded = .ok v ↔
    ∃ k, Chosen l blames excluded v k
  order : ∀ others : List (Nat × Nat), others.Perm blames →
    selectSpill f.name l.interference l others excluded =
      selectSpill f.name l.interference l blames excluded

namespace Function

/-- In any function that can be analysed, and for any nodes that are blamed and ids that are
    excluded, the register to spill is the one that should be, whatever the order of the list. -/
theorem choosesSpill_of_liveness {f : Function M} {l : Liveness M} (hl : f.liveness = .ok l)
    {blames : List (Nat × Nat)} (hkeys : (blames.map Prod.fst).Nodup)
    (hnodes : ∀ n ∈ blames.map Prod.fst, n < l.interference.size) (excluded : List Nat) :
    f.ChoosesSpill l blames excluded where
  count _ _ _ h h' := eligible_count_unique hl hkeys h h'
  exhausted := selectSpill_eq_exhausted_iff hnodes
  found := fun ⟨_, _, h⟩ => exists_selectSpill_of_eligible hnodes f.name h
  chosen _ := selectSpill_eq_ok_iff hl hnodes
  order _ hperm := selectSpill_perm hl hnodes hperm

/-- Three values that are live at once, of a class with two registers, and their sum. -/
def twoSums : Function flat :=
  let r (k : Nat) : VReg flat := ⟨k, FlatClass.mk 2⟩
  ⟨"f", [⟨[], [
    Sample.assign .copy (r 0) [.imm 1], Sample.assign .copy (r 1) [.imm 2],
    Sample.assign .copy (r 2) [.imm 3],
    Sample.assign .add (r 3) [.ofVReg (r 0), .ofVReg (r 1)],
    Sample.assign .add (r 4) [.ofVReg (r 3), .ofVReg (r 2)],
    Sample.perform .ret [.ofVReg (r 4)]]⟩]⟩

/-- Without the first value, the other two are worth the same, and the lower one is chosen. -/
theorem twoSums_choosesSpill : ∃ l, twoSums.liveness = .ok l ∧
    l.interference.color = .ok (.stuck [(0, 1), (1, 1), (2, 1)]) ∧
    twoSums.ChoosesSpill l [(2, 1), (0, 1), (1, 1)] [0] ∧
    selectSpill twoSums.name l.interference l [(2, 1), (0, 1), (1, 1)] [0] =
      .ok ⟨1, FlatClass.mk 2⟩ := by
  refine ⟨_, rfl, rfl, ?_, rfl⟩
  exact choosesSpill_of_liveness rfl (by decide) (by decide +kernel) [0]

end Function

end RegisterColoring
