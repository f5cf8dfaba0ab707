import RegisterColoring.Proofs.Blamed
import RegisterColoring.Proofs.CompiledRuns
import RegisterColoring.Proofs.SpillCode
import RegisterColoring.Proofs.Tracked

/-!
# Spilling Suffices

On a machine whose registers do not overlap, an allocation succeeds whenever every
instruction on its own has enough registers. It does not matter how the blocks are
connected and how many values are alive at once.

Coloring is stuck at a node all of whose registers are taken by blamed neighbours. If
they all were registers of spill code, they and the register of the node would be
operands of one instruction, which has no more than there are registers. So one of them
is still to be spilled. Each spill takes an id of the function out of the question, and
the budget has room for all of them.

## Theorems

* `Function.Tended.length_lt`: Few registers of spill code are alive beside one.
* `Function.Tended.round`: A round places all registers or finds one to spill.
* `exists_allocateRounds`: The rounds come to an end.
* `Function.allocate_of_fits`: An allocation for which every instruction fits succeeds.
-/

namespace RegisterColoring

variable {M : Machine}

namespace Function

variable {f : Function M} {l : Liveness M} {c : M.Class} {k m : Nat} {Temp Spilled : VReg M → Prop}

/-- Without ties, a group holds one register. -/
theorem eq_of_mem_group (hties : f.ties = []) (hl : f.liveness = .ok l) {n : Nat}
    {group : List (Register M)} (hn : l.groups[n]? = some group) {r q : Register M}
    (hr : r ∈ group) (hq : q ∈ group) : q = r := by
  rcases Partition.Connects.mem_pairs (tiedTo_of_mem_group hl hn hr hq) with heq | ⟨⟨pair, hpair, _⟩, _⟩
  · exact heq.symm
  · rw [hties] at hpair
    exact absurd hpair (by simp)

/-- Neighbours that hold virtual registers only have ranges that overlap. -/
theorem overlap_of_mem_neighbors (hvirtual : ∀ group ∈ l.groups, ∀ r ∈ group, r.physical? = none)
    {n n' : Nat} (h : n' ∈ l.interference.neighbors n) :
    n ≠ n' ∧ ∃ group group', l.groups[n]? = some group ∧ l.groups[n']? = some group' ∧
      ∃ r ∈ group, ∃ d ∈ group', ∃ a ∈ l.rangesOf r, ∃ b ∈ l.rangesOf d, a.overlaps b = true := by
  rcases mem_succ_ofRelation.mp h with ⟨x, y, hx, hy, hne, hclash⟩
  rw [List.getElem?_map, Option.map_eq_some_iff] at hx hy
  rcases hx with ⟨group, hgroup, rfl⟩
  rcases hy with ⟨group', hgroup', rfl⟩
  refine ⟨hne, group, group', hgroup, hgroup', ?_⟩
  have hphysical : Group.holdsPhysical ⟨group, group.flatMap l.rangesOf⟩ = false := by
    refine List.any_eq_false.mpr fun r hr => ?_
    have hnone := hvirtual group (List.mem_of_getElem? hgroup) r hr
    cases r with
    | virtual v => simp [Register.isVirtual]
    | physical p => exact absurd hnone (by simp [Register.physical?])
  simp only [Group.clashes, hphysical, Bool.false_and, Bool.false_or] at hclash
  rcases List.any_eq_true.mp hclash with ⟨a, ha, hclash⟩
  rcases List.any_eq_true.mp hclash with ⟨b, hb, hoverlap⟩
  rcases List.mem_flatMap.mp ha with ⟨r, hr, ha⟩
  rcases List.mem_flatMap.mp hb with ⟨d, hd, hb⟩
  exact ⟨r, hr, d, hd, a, ha, b, hb, hoverlap⟩

theorem Fits.cls_eq (hf : f.Fits c k) {v : VReg M} (hv : .virtual v ∈ f.registers) : v.cls = c := by
  rcases hf.registers _ hv with ⟨u, hu, hcls⟩
  rw [Register.virtual.inj hu, hcls]

/-- Registers that fit are virtual. -/
theorem Fits.physical (hf : f.Fits c k) {r : Register M} (hr : r ∈ f.registers) :
    r.physical? = none := by
  rcases hf.registers r hr with ⟨v, rfl, _⟩
  rfl

theorem Fits.physical_group (hf : f.Fits c k) (hl : f.liveness = .ok l) :
    ∀ group ∈ l.groups, ∀ r ∈ group, r.physical? = none := fun _ hgroup _ hr =>
  hf.physical (mem_registers_of_mem_group hf.inputs hl hgroup hr)

/-- Fewer registers of spill code are alive beside one of them than an instruction reads. -/
theorem Tended.length_lt (h : f.Tended m Temp Spilled) (hf : f.Fits c k) (hk : 1 ≤ k)
    (hties : f.ties = []) (hl : f.liveness = .ok l) {n : Nat} {u : VReg M}
    (hu : .virtual u ∈ l.interference.regs n) (hTS : Temp u ∨ Spilled u) {nodes : List Nat}
    (hnodup : nodes.Nodup)
    (hnodes : ∀ n' ∈ nodes, n' ∈ l.interference.neighbors n ∧
      ∀ w, .virtual w ∈ l.interference.regs n' → Temp w ∨ Spilled w) : nodes.length < k := by
  rcases h.exists_operands hf hl hTS with ⟨L, hcard, hL⟩
  -- Each of the nodes holds a register among the operands.
  have hheld : ∀ n' ∈ nodes, ∃ w, (∃ group, l.groups[n']? = some group ∧ .virtual w ∈ group) ∧
      u ≠ w ∧ .virtual u ∈ L ∧ .virtual w ∈ L := by
    intro n' hn'
    rcases overlap_of_mem_neighbors (hf.physical_group hl) (hnodes n' hn').1 with
      ⟨hne, group, group', hgroup, hgroup', r, hr, d, hd, a, ha, b, hb, hoverlap⟩
    rw [Liveness.regs_interference hgroup] at hu
    obtain rfl := eq_of_mem_group hties hl hgroup hu hr
    have hdreg := mem_registers_of_mem_group hf.inputs hl (List.mem_of_getElem? hgroup') hd
    rcases hf.registers d hdreg with ⟨w, rfl, _⟩
    have huw : u ≠ w := by
      rintro rfl
      exact hne (group_unique hl hgroup hu hgroup' hd (.refl _))
    have hTSw := (hnodes n' hn').2 w (Liveness.regs_interference hgroup' ▸ hd)
    exact ⟨w, ⟨group', hgroup', hd⟩, huw, hL w hTSw huw a ha b hb hoverlap⟩
  cases hcases : nodes with
  | nil => exact hk
  | cons n₀ rest =>
      rcases hheld n₀ (by rw [hcases]; exact List.mem_cons_self) with ⟨_, _, _, huL, _⟩
      have : Nonempty (VReg M) := ⟨u⟩
      choose! reg hreg using hheld
      -- Different nodes hold different registers, and none of them is the one they surround.
      have hinj : ∀ x ∈ nodes, ∀ y ∈ nodes, Register.virtual (reg x) = .virtual (reg y) → x = y := by
        intro x hx y hy heq
        rcases (hreg x hx).1 with ⟨group, hgroup, hmem⟩
        rcases (hreg y hy).1 with ⟨group', hgroup', hmem'⟩
        exact group_unique hl hgroup hmem hgroup' hmem' (heq ▸ .refl _)
      have hsub : (nodes.map fun x => Register.virtual (reg x)).toFinset ⊆
          L.toFinset.erase (.virtual u) := by
        intro r hr
        rcases List.mem_map.mp (List.mem_toFinset.mp hr) with ⟨x, hx, rfl⟩
        refine Finset.mem_erase.mpr ⟨fun heq => ?_, List.mem_toFinset.mpr (hreg x hx).2.2.2⟩
        exact (hreg x hx).2.1 (Register.virtual.inj heq).symm
      calc (n₀ :: rest).length
          = (nodes.map fun x => Register.virtual (reg x)).toFinset.card := by
            rw [List.toFinset_card_of_nodup ((List.nodup_map_iff_inj_on hnodup).mpr hinj),
              List.length_map, hcases]
        _ ≤ (L.toFinset.erase (.virtual u)).card := Finset.card_le_card hsub
        _ < L.toFinset.card := Finset.card_erase_lt_of_mem (List.mem_toFinset.mpr huL)
        _ ≤ k := hcard

/-- A round of an allocation places all registers or finds one that can still be spilled. -/
theorem Tended.round (h : f.Tended m Temp Spilled) (hf : f.Fits c k) (hk : 1 ≤ k)
    (hM : M.Disjoint) (hmembers : ∀ d, (M.members d).Nodup) (hcount : (M.members c).length = k)
    (hties : f.ties = []) {excluded : List Nat}
    (hexcluded : ∀ u : VReg M, .virtual u ∈ f.registers →
      (u.id ∈ excluded ↔ Temp u ∨ Spilled u)) :
    (∃ func, f.round excluded = .ok (.placed func)) ∨
      ∃ v, f.round excluded = .ok (.mustSpill v) ∧ .virtual v ∈ f.registers ∧
        v.id ∉ excluded := by
  rcases exists_liveness hf.inputs fun r hr => hf.physical hr with ⟨l, hl⟩
  rcases Liveness.exists_coloring (hf.physical_group hl) with ⟨coloring, hcolor⟩
  unfold Function.round
  simp only [hl, hcolor]
  cases coloring with
  | complete colors => exact Or.inl ⟨_, rfl⟩
  | stuck blames =>
      rcases Interference.color_stuck l.mutual_interference hcolor with ⟨hblocked, hsize⟩
      have hregs : ∀ {n : Nat} {v : VReg M}, .virtual v ∈ l.interference.regs n →
          .virtual v ∈ f.registers := fun hv => mem_registers_of_mem_regs hf.inputs hl hv
      -- Not all blamed nodes hold registers of spill code.
      have hfree : ∃ n ∈ blames.map Prod.fst, ∃ v, .virtual v ∈ l.interference.regs n ∧
          v.id ∉ excluded := by
        have hnot := hblocked.exists_not hM hmembers
          (P := fun n => ∀ v, .virtual v ∈ l.interference.regs n → Temp v ∨ Spilled v)
          (fun n d hclass hP nodes hnodup hnodes => ?_)
        · rcases hnot with ⟨n, hn, hnot⟩
          push Not at hnot
          rcases hnot with ⟨v, hv, hnot⟩
          refine ⟨n, hn, v, hv, fun hid => ?_⟩
          have hTS := (hexcluded v (hregs hv)).mp hid
          exact hTS.elim hnot.1 hnot.2
        · rcases Interference.exists_of_class hclass with ⟨u, hu, rfl⟩
          rw [hf.cls_eq (hregs hu), hcount]
          exact h.length_lt hf hk hties hl hu (hP u hu) hnodup hnodes
      rcases exists_selectSpill f.name l hsize hfree with ⟨v, hv⟩
      rcases selectSpill_eq_ok hv with ⟨n, _, hmem, hid⟩
      refine Or.inr ⟨v, ?_, hregs hmem, hid⟩
      simp only [hv, Except.map]

theorem ties_eq_nil_of_tied (htied : ∀ o, M.tied o = []) (f : Function M) : f.ties = [] := by
  refine List.flatMap_eq_nil_iff.mpr fun b _ => List.flatMap_eq_nil_iff.mpr fun i _ => ?_
  have hop : i.op.tied = [] := by
    cases i.op with
    | common o => rfl
    | native o => exact htied o
  rw [Instr.ties, hop]
  rfl

end Function

/-- The ids that a spill excludes are those of the spilled register and of the reloaded ones. -/
theorem mem_excluded_iff {u v : VReg M} {Temp Spilled : VReg M → Prop} {reloads excluded : List Nat}
    (hcls : u.cls = v.cls) (h : u.id ∈ excluded ↔ Temp u ∨ Spilled u) :
    u.id ∈ v.id :: (reloads ++ excluded) ↔
      (Temp u ∨ (u.id ∈ reloads ∧ u.cls = v.cls)) ∨ (Spilled u ∨ u = v) := by
  have huv : u.id = v.id ↔ u = v :=
    ⟨fun hid => congrArg₂ VReg.mk hid hcls, fun heq => by rw [heq]⟩
  rw [List.mem_cons, List.mem_append, h, huv, and_iff_left hcls]
  tauto

section Rounds

variable {c : M.Class} {k : Nat} (hk : 1 ≤ k) (hM : M.Disjoint) (htied : ∀ o, M.tied o = [])
  (hmembers : ∀ d, (M.members d).Nodup) (hcount : (M.members c).length = k)
include hk hM htied hmembers hcount

/-- The rounds of an allocation succeed with a budget for the ids that are not excluded. -/
theorem exists_allocateRounds {w : Workspace M} {excluded free : List Nat} {done : Summary}
    {budget m : Nat} {Temp Spilled : VReg M → Prop} (h : w.func.Tended m Temp Spilled)
    (hf : w.func.Fits c k) (hnum : w.func.Numbered w.supply m)
    (hexcluded : ∀ u : VReg M, .virtual u ∈ w.func.registers →
      (u.id ∈ excluded ↔ Temp u ∨ Spilled u))
    (hfree : ∀ u : VReg M, .virtual u ∈ w.func.registers → u.id ∉ excluded → u.id ∈ free)
    (hbudget : free.length ≤ budget)
    (hregs : m + (allocateRounds w excluded done budget).workspace.func.reloadCount ≤
      Supply.capacity + w.func.reloadCount) :
    ∃ summary, (allocateRounds w excluded done budget).result = .ok summary := by
  induction budget generalizing w excluded free done m Temp Spilled with
  | zero =>
      -- Without a budget all registers are excluded, so there is none to spill.
      rcases h.round hf hk hM hmembers hcount (Function.ties_eq_nil_of_tied htied _) hexcluded with
        ⟨func, hround⟩ | ⟨v, _, hv, hid⟩
      · exact ⟨_, by rw [allocateRounds, hround]⟩
      · have hmem := hfree v hv hid
        rw [List.eq_nil_of_length_eq_zero (Nat.le_zero.mp hbudget)] at hmem
        exact absurd hmem (by simp)
  | succ budget ih =>
      rcases h.round hf hk hM hmembers hcount (Function.ties_eq_nil_of_tied htied _) hexcluded with
        ⟨func, hround⟩ | ⟨v, hround, hv, hid⟩
      · exact ⟨_, by rw [allocateRounds, hround]⟩
      · rcases Function.exists_spill hf.inputs v w.supply with ⟨s, hspill⟩
        have hvTS : ¬ (Temp v ∨ Spilled v) := fun hTS => hid ((hexcluded v hv).mpr hTS)
        have hvcls := hf.cls_eq hv
        rw [allocateRounds, hround] at hregs ⊢
        simp only [hspill] at hregs ⊢
        -- What the rest draws comes after the reloads of this spill.
        have hle := reloadCount_le_allocateRounds ⟨s.func, s.supply⟩
          (v.id :: (s.reloads ++ excluded))
          ⟨done.rounds + 1, done.spilled ++ [v.id], done.slots ++ [s.slot]⟩ budget
        rw [Function.reloadCount_spill hspill] at hle
        have hm : m + s.reloads.length ≤ Supply.capacity := by omega
        have hspills := Function.spillsTo_of_spill hspill (hnum.freshFor hm)
        have hold : ∀ u : VReg M, .virtual u ∈ s.func.registers →
            .virtual u ∈ w.func.registers ∨ (u.id ∈ s.reloads ∧ u.cls = v.cls) := by
          intro u hu
          rcases hspills.mem_registers_cases hf.inputs hu with hu | ⟨x, hx, heq⟩
          · exact Or.inl hu
          · exact Or.inr (Register.virtual.inj heq ▸ hx)
        have hfree' : ∀ u : VReg M, .virtual u ∈ s.func.registers →
            u.id ∉ v.id :: (s.reloads ++ excluded) → u.id ∈ free.erase v.id := by
          intro u hu huid
          simp only [List.mem_cons, List.mem_append, not_or] at huid
          rcases hold u hu with hu | hu
          · exact (List.mem_erase_of_ne huid.1).mpr (hfree u hu huid.2.2)
          · exact absurd hu.1 huid.2.1
        refine ih (h.spill hf hnum hv hvTS hspill hm)
          (hf.spill hk hspills fun u hu => hu.2.trans hvcls) (hnum.spill hf.inputs hspill hm)
          (fun u hu => ?_) hfree' ?_ ?_
        · rcases hold u hu with hu | hu
          · exact mem_excluded_iff ((hf.cls_eq hu).trans hvcls.symm) (hexcluded u hu)
          · refine iff_of_true (List.mem_cons_of_mem _ ?_) (Or.inl (Or.inr hu))
            exact List.mem_append_left _ hu.1
        · rw [List.length_erase_of_mem (hfree v hv hid)]
          omega
        · rw [Function.reloadCount_spill hspill]
          omega

end Rounds

namespace Function

/-- The first `n` of sixteen registers that do not overlap are enough for a function whose
    instructions each read no more than that, whatever is alive between them. -/
theorem allocate_of_fits {f : Function flat} {n : Nat} {supply : Supply} (hn : 1 ≤ min n 16)
    (hf : f.Fits ⟨n⟩ (min n 16)) (hids : f.IdsBelow supply.registers)
    (hregs : supply.registers + (f.allocate supply).workspace.func.reloadCount ≤
      Supply.capacity + f.reloadCount) :
    ∃ summary, (f.allocate supply).result = .ok summary := by
  have hmembers : ∀ d : FlatClass, (flat.members d).Nodup := fun d =>
    (List.nodup_finRange 16).sublist (List.take_sublist _ _)
  have hcount : (flat.members ⟨n⟩).length = min n 16 := by
    rw [List.length_take, List.length_finRange]
  have hinput : f.remainingInput? = none := remainingInput_eq_none hf.inputs
  have htied : ∀ o : flat.Native, flat.tied o = [] := fun o => Empty.elim o
  unfold allocate at hregs ⊢
  by_cases hvirtual : f.hasVirtual = true
  · rw [if_pos hvirtual, hinput] at hregs ⊢
    refine exists_allocateRounds hn (fun _ _ h => h) htied hmembers hcount
      (f.tended_none supply.registers) hf ⟨hids, rfl⟩ (fun u _ => by simp) (fun u hu _ => ?_)
      (Nat.le_refl f.vregIds.length) hregs
    -- To begin with, every id of the function can be spilled.
    refine (mem_ascending below_apart).mpr (List.mem_map.mpr ⟨u, ?_, rfl⟩)
    exact Register.mem_virtuals.mpr hu
  · rw [if_neg hvirtual]
    exact ⟨{}, rfl⟩

/-- A loop through which three values are alive, for two registers. -/
def threeInTwo : Function flat :=
  let r (k : Nat) : VReg flat := ⟨k, FlatClass.mk 2⟩
  ⟨"three", [
    ⟨[], [Sample.assign .copy (r 0) [.imm 1], Sample.assign .copy (r 1) [.imm 2],
      Sample.assign .copy (r 2) [.imm 3], Sample.perform .jmp [.block 1]]⟩,
    ⟨[], [Sample.assign .add (r 3) [.ofVReg (r 0), .ofVReg (r 1)],
      Sample.assign .sub (r 4) [.ofVReg (r 3), .ofVReg (r 2)],
      Sample.perform .jnz [.ofVReg (r 4), .block 1], Sample.perform .jmp [.block 2]]⟩,
    ⟨[], [Sample.perform .ret [.ofVReg (r 4)]]⟩]⟩

theorem threeInTwo_allocate : threeInTwo.Fits ⟨2⟩ (min 2 16) ∧
    (threeInTwo.allocate ⟨5, 0⟩).workspace.func.reloadCount = 3 ∧
      ∃ summary, (threeInTwo.allocate ⟨5, 0⟩).result = .ok summary := by
  have hfits : threeInTwo.Fits ⟨2⟩ (min 2 16) := by decide
  have hcount : (threeInTwo.allocate ⟨5, 0⟩).workspace.func.reloadCount = 3 := by decide +kernel
  refine ⟨hfits, hcount, allocate_of_fits (by decide) hfits (by decide) ?_⟩
  rw [hcount]
  decide

end Function

end RegisterColoring
