import RegisterColoring.Proofs.Renumbering
import RegisterColoring.Proofs.SpillOrder
import RegisterColoring.Proofs.Tracked

/-!
# Rounds of Renumbered Functions

A round of an allocation analyses a function, colors its interference graph and, if that is
stuck, chooses a register to spill. Each of these steps commutes with a renumbering: the
analysis finds the renumbered ranges and groups, the graph has the same links, coloring
takes the same decisions, and the choice falls on the renumbered register.

The reason is the same everywhere. Registers are only compared with each other, by equality,
aliasing or order, and a renumbering keeps all three.

## Main definitions

* `Partition.Renames`: Disjoint sets of other keys.
* `Liveness.renumber`: An analysis with new ids.

## Theorems

* `Partition.Renames.union`: Uniting renamed keys.
* `gather_map`: Groups of renumbered elements.
* `Function.Renumbered.liveness`: The analysis of renumbered code.
* `color_congr`: What coloring depends on.
* `Liveness.color_renumber`: The colors of a renumbered analysis.
* `Liveness.place_renumber`: The place of a renumbered register.
* `selectSpill_renumber`: The choice among renumbered registers.
* `Function.Renumbered.round`: How a round of renumbered code ends.
-/

namespace RegisterColoring

variable {M : Machine} {ρ : Renumbering}

namespace Partition

variable {α β : Type} [DecidableEq α] [DecidableEq β] {φ : α → β} {p : Partition α}
  {q : Partition β}

/-- Disjoint sets of other keys: every key has the renamed representative. -/
def Renames (φ : α → β) (p : Partition α) (q : Partition β) : Prop :=
  ∀ a, q.root? (φ a) = (p.root? a).map φ

namespace Renames

theorem rootD (h : Renames φ p q) (a : α) : q.rootD (φ a) = φ (p.rootD a) := by
  rw [Partition.rootD, h a, Option.getD_map, Partition.rootD]

/-- Uniting renamed keys gives renamed sets. -/
theorem union (hφ : Function.Injective φ) (h : Renames φ p q) (a b : α) :
    Renames φ (p.union a b) (q.union (φ a) (φ b)) := by
  intro x
  rw [root?_union, root?_union, h.rootD, h.rootD, h x]
  simp only [hφ.eq_iff]
  split
  · rfl
  · rw [Option.map_map, Option.map_map]
    congr 1
    funext rep
    simp only [Function.comp_apply, hφ.eq_iff, apply_ite φ]

theorem foldl_union (hφ : Function.Injective φ) (h : Renames φ p q) (pairs : List (α × α)) :
    Renames φ (pairs.foldl (fun sets pair => sets.union pair.1 pair.2) p)
      (pairs.foldl (fun sets pair => sets.union (φ pair.1) (φ pair.2)) q) := by
  induction pairs generalizing p q with
  | nil => exact h
  | cons pair pairs ih => exact ih (h.union hφ pair.1 pair.2)

end Renames

end Partition

section Gathering

variable {α β κ χ : Type} [DecidableEq κ] [DecidableEq χ] {φ : α → β} {ψ : κ → χ}

theorem addToGroup_map (hψ : Function.Injective ψ) (k : κ) (a : α) (groups : List (κ × List α)) :
    addToGroup (ψ k) (φ a) (groups.map (Prod.map ψ (List.map φ))) =
      (addToGroup k a groups).map (Prod.map ψ (List.map φ)) := by
  induction groups with
  | nil => rfl
  | cons entry groups ih =>
      obtain ⟨key, group⟩ := entry
      simp only [List.map_cons, Prod.map_apply, addToGroup, hψ.eq_iff]
      split
      · simp
      · rw [ih, List.map_cons, Prod.map_apply]

/-- The groups of renumbered elements, if keys are renumbered with them. -/
theorem gather_map (hψ : Function.Injective ψ) {key : α → κ} {key' : β → χ}
    (hkey : ∀ a, key' (φ a) = ψ (key a)) (l : List α) :
    gather key' (l.map φ) = (gather key l).map (List.map φ) := by
  -- Groups grow one element at a time, and both folds put it into the same group.
  have hfold : l.foldl (fun groups a => addToGroup (key' (φ a)) (φ a) groups)
      (([] : List (κ × List α)).map (Prod.map ψ (List.map φ))) =
        (l.foldl (fun groups a => addToGroup (key a) a groups) []).map
          (Prod.map ψ (List.map φ)) :=
    List.foldl_hom _ fun groups a => by rw [hkey, addToGroup_map hψ]
  rw [gather, List.foldl_map]
  rw [List.map_nil] at hfold
  rw [hfold, gather, List.map_map, List.map_map]
  rfl

end Gathering

section Scans

variable (scans : List (Scan M))

theorem physicalLiveIn_renumber :
    physicalLiveIn? (scans.map (Scan.renumber ρ)) = physicalLiveIn? scans := by
  unfold physicalLiveIn?
  rw [List.zipIdx_map, List.findSome?_map]
  congr 1
  funext entry
  simp only [Function.comp_apply, Prod.map, Scan.renumber, List.filterMap_map, ρ.physical_reg, id]

theorem blocksWhere_renumber {p q : Scan M → Bool} (h : ∀ s, q (s.renumber ρ) = p s) :
    blocksWhere (scans.map (Scan.renumber ρ)) q = blocksWhere scans p := by
  unfold blocksWhere
  rw [List.zipIdx_map, List.filterMap_map]
  refine List.filterMap_congr fun entry _ => ?_
  simp only [Function.comp_apply, Prod.map, h, id]

theorem presence_renumber (r : Register M) :
    presence (scans.map (Scan.renumber ρ)) (ρ.reg r) = presence scans r := by
  unfold presence
  rw [blocksWhere_renumber scans fun s => s.exposes_renumber r,
    blocksWhere_renumber scans fun s => s.defines_renumber r]

theorem vregRanges_renumber (lasts : List Nat) (s : Spread) (r : Register M) :
    vregRanges ((scans.map (Scan.renumber ρ)).zip lasts) s (ρ.reg r) =
      vregRanges (scans.zip lasts) s r := by
  unfold vregRanges
  rw [List.zip_map_left, List.zipIdx_map, List.flatMap_map]
  simp only [Prod.map, Scan.spans_renumber, id]

theorem writtenPhysicals_renumber :
    Function.writtenPhysicals (scans.map (Scan.renumber ρ)) = Function.writtenPhysicals scans := by
  unfold Function.writtenPhysicals
  simp only [List.flatMap_map, Scan.renumber, List.filterMap_map, Function.comp_def, Prod.map,
    ρ.physical_reg]

theorem physicalRanges_renumber (written : List M.Reg) (key : M.Reg) :
    physicalRanges (scans.map (Scan.renumber ρ)) written key =
      physicalRanges scans written key := by
  unfold physicalRanges
  rw [List.zipIdx_map, List.flatMap_map]
  simp only [Prod.map, Scan.renumber, List.filterMap_map, id]
  congr 1
  funext entry
  congr 1
  refine List.filterMap_congr fun write _ => ?_
  obtain ⟨r, span⟩ := write
  cases r <;> rfl

end Scans

/-- An analysis with new ids. -/
def Liveness.renumber (ρ : Renumbering) (l : Liveness M) : Liveness M where
  ranges := l.ranges.map (Prod.map ρ.reg id)
  groups := l.groups.map (List.map ρ.reg)
  liveIn := l.liveIn.map (List.map ρ.reg)

/-- A track with a new id. -/
def Track.renumber (ρ : Renumbering) (t : Track M) : Track M :=
  { t with reg := ρ.reg t.reg }

namespace Function.Renumbered

variable {f g : Function M}

theorem ties (h : f.Renumbered ρ g) : g.ties = f.ties.map (Prod.map ρ.reg ρ.reg) := by
  have hblocks : g.blocks.map (fun c => c.code.reverse.flatMap Instr.ties) =
      f.blocks.map fun b => (b.code.reverse.flatMap Instr.ties).map (Prod.map ρ.reg ρ.reg) := by
    refine map_eq_of_forall₂ h.blocks fun b _ c hbc => ?_
    have hcode := map_eq_of_forall₂ (List.forall₂_reverse_iff.mpr hbc.code)
      fun _ _ _ hij => Instr.Renumbered.ties hij
    rw [List.flatMap_def, hcode, List.flatMap_def, List.map_flatten, List.map_map]
    rfl
  rw [Function.ties, Function.ties, List.flatMap_def, hblocks, List.flatMap_def,
    List.map_flatten, List.map_map]
  rfl

theorem vregIds (h : f.Renumbered ρ g) : g.vregIds = f.vregIds.map ρ.num := by
  rw [Function.vregIds, Function.vregIds, h.registers, ρ.virtuals_map_reg,
    ← ascending_map ρ.below_num, List.map_map, List.map_map]
  rfl

/-- The sets of tied registers are renumbered. -/
theorem tiedSets (h : f.Renumbered ρ g) : Partition.Renames ρ.reg f.tiedSets g.tiedSets := by
  have hempty : Partition.Renames ρ.reg (.empty : Partition (Register M)) .empty := fun _ => rfl
  rw [Function.tiedSets, Function.tiedSets, h.ties, List.foldl_map]
  exact hempty.foldl_union ρ.reg_injective f.ties

theorem tiedGroups (h : f.Renumbered ρ g) (registers : List (Register M)) :
    g.tiedGroups (registers.map ρ.reg) = (f.tiedGroups registers).map (List.map ρ.reg) := by
  have htied : (f.ties.map (Prod.map ρ.reg ρ.reg)).flatMap (fun pair => [pair.1, pair.2]) =
      (f.ties.flatMap fun pair => [pair.1, pair.2]).map ρ.reg := by
    rw [List.flatMap_map, List.map_flatMap]
    rfl
  simp only [Function.tiedGroups]
  rw [h.ties, htied, ← List.map_append, ascending_map ρ.before_reg]
  exact gather_map ρ.reg_injective (fun r => h.tiedSets.rootD r) _

theorem tracks (h : f.Renumbered ρ g) (scans : List (Scan M)) :
    g.tracks (scans.map (Scan.renumber ρ)) = (f.tracks scans).map (Track.renumber ρ) := by
  have hlasts := map_eq_of_forall₂ h.blocks fun _ _ _ hbc => Block.Renumbered.lastIndex hbc
  have hvirtuals : ((scans.map (Scan.renumber ρ)).flatMap Scan.registers).filter
      Register.isVirtual = ((scans.flatMap Scan.registers).filter Register.isVirtual).map ρ.reg := by
    have hcomp : (Register.isVirtual ∘ ρ.reg : Register M → Bool) = Register.isVirtual :=
      funext ρ.isVirtual_reg
    simp only [List.flatMap_map, Scan.registers_renumber]
    rw [← List.map_flatMap, List.filter_map, hcomp]
  simp only [Function.tracks]
  rw [hvirtuals, ascending_map ρ.before_reg, List.map_map, List.map_map]
  -- A register and its new name are present in the same blocks, so they spread alike.
  refine List.map_congr_left fun r _ => ?_
  simp only [Function.comp_apply, Track.renumber, presence_renumber, h.arrivals, h.size, hlasts,
    vregRanges_renumber]

theorem ranges (h : f.Renumbered ρ g) (scans : List (Scan M)) :
    (g.livenessOf (scans.map (Scan.renumber ρ))).ranges =
      (f.livenessOf scans).ranges.map (Prod.map ρ.reg id) := by
  simp only [Function.livenessOf, entries_ledgerOf, h.tracks, writtenPhysicals_renumber,
    physicalRanges_renumber, List.map_append, List.map_map]
  rfl

theorem livenessOf (h : f.Renumbered ρ g) (scans : List (Scan M)) :
    g.livenessOf (scans.map (Scan.renumber ρ)) = (f.livenessOf scans).renumber ρ := by
  have hranges := h.ranges scans
  have hgroups : (g.livenessOf (scans.map (Scan.renumber ρ))).groups =
      (f.livenessOf scans).groups.map (List.map ρ.reg) := by
    -- Groups are made of the registers that ranges are kept for.
    have hunfold : ∀ (k : Function M) (scans : List (Scan M)), (k.livenessOf scans).groups =
        k.tiedGroups ((k.livenessOf scans).ranges.map Prod.fst) := fun _ _ => rfl
    rw [hunfold, hunfold, hranges, ← h.tiedGroups, List.map_map, List.map_map]
    rfl
  have hliveIn : (g.livenessOf (scans.map (Scan.renumber ρ))).liveIn =
      (f.livenessOf scans).liveIn.map (List.map ρ.reg) := by
    simp only [Function.livenessOf, h.tracks, h.size, List.map_map]
    refine List.map_congr_left fun b _ => ?_
    simp only [Function.comp_apply, List.filterMap_map, List.map_filterMap]
    refine List.filterMap_congr fun t _ => ?_
    simp [Track.renumber, apply_ite (Option.map ρ.reg)]
  rw [Liveness.renumber, ← hranges, ← hgroups, ← hliveIn]

/-- The analysis of renumbered code. -/
theorem liveness (h : f.Renumbered ρ g) : g.liveness = f.liveness.map (Liveness.renumber ρ) := by
  simp only [Function.liveness]
  rw [h.scans, physicalLiveIn_renumber]
  cases physicalLiveIn? (f.blocks.map Block.scan) with
  | some cause => rfl
  | none => simp only [Except.map, h.livenessOf]

end Function.Renumbered

/-- A group with new ids. -/
def Group.renumber (ρ : Renumbering) (g : Group M) : Group M :=
  { g with regs := g.regs.map ρ.reg }

namespace Group

theorem clashes_renumber (g h : Group M) : (g.renumber ρ).clashes (h.renumber ρ) = g.clashes h := by
  have hholds : ∀ g : Group M, (g.renumber ρ).holdsPhysical = g.holdsPhysical := by
    intro g
    simp only [holdsPhysical, renumber, List.any_map, Function.comp_def, ρ.isVirtual_reg]
  rw [clashes, hholds, hholds]
  rfl

theorem class_renumber (g : Group M) : (g.renumber ρ).class? = g.class? := by
  have hclass : ∀ regs : List (Register M),
      ((regs.map ρ.reg).findSome? Register.virtual?).map VReg.cls =
        (regs.findSome? Register.virtual?).map VReg.cls := by
    intro regs
    induction regs with
    | nil => rfl
    | cons r regs ih =>
        cases r with
        | virtual v => rfl
        | physical p => exact ih
  exact hclass g.regs

end Group

/-- The links of the graph of a relation that new labels keep. -/
theorem succ_ofRelation_map {α β : Type} {φ : α → β} {related : α → α → Bool}
    {related' : β → β → Bool} (h : ∀ a b, related' (φ a) (φ b) = related a b) (labels : List α) :
    (Digraph.ofRelation (labels.map φ) related').succ = (Digraph.ofRelation labels related).succ := by
  funext n
  unfold Digraph.succ Digraph.ofRelation
  simp only [List.getElem?_toArray, List.getElem?_map, List.getElem?_zipIdx, List.zipIdx_map,
    List.filterMap_map]
  cases labels[n]? with
  | none => rfl
  | some a =>
      refine List.filterMap_congr fun entry _ => ?_
      simp only [Function.comp_apply, Prod.map, h, id]

namespace Liveness

variable (l : Liveness M)

theorem rangesOf_renumber (r : Register M) :
    (l.renumber ρ).rangesOf (ρ.reg r) = l.rangesOf r := by
  rw [rangesOf, renumber, Scan.lookup_renumber, rangesOf]

theorem interference_renumber :
    (l.renumber ρ).interference = .ofRelation ((l.groups.map fun regs =>
      (⟨regs, regs.flatMap l.rangesOf⟩ : Group M)).map (Group.renumber ρ)) Group.clashes := by
  unfold interference
  congr 1
  rw [renumber, List.map_map, List.map_map]
  refine List.map_congr_left fun regs _ => ?_
  have hranges : (regs.map ρ.reg).flatMap (l.renumber ρ).rangesOf = regs.flatMap l.rangesOf := by
    rw [List.flatMap_map]
    exact congrArg (regs.flatMap ·) (funext l.rangesOf_renumber)
  simp only [Function.comp_apply, Group.renumber]
  rw [← hranges]
  rfl

/-- The graph of a renumbered analysis has the same links. -/
theorem neighbors_renumber :
    (l.renumber ρ).interference.neighbors = l.interference.neighbors := by
  funext n
  unfold Interference.neighbors
  rw [interference_renumber, succ_ofRelation_map Group.clashes_renumber]
  rfl

theorem label_renumber (n : Nat) : (l.renumber ρ).interference.label? n =
    (l.interference.label? n).map (Group.renumber ρ) := by
  rw [interference_renumber, label_ofRelation, List.getElem?_map, interference, label_ofRelation]

theorem size_renumber : (l.renumber ρ).interference.size = l.interference.size := by
  rw [size_interference, size_interference, renumber, List.length_map]

theorem class_renumber : (l.renumber ρ).interference.class? = l.interference.class? := by
  funext n
  unfold Interference.class?
  rw [label_renumber]
  cases l.interference.label? n with
  | none => rfl
  | some group => exact group.class_renumber

theorem regs_renumber (n : Nat) :
    (l.renumber ρ).interference.regs n = (l.interference.regs n).map ρ.reg := by
  unfold Interference.regs
  rw [label_renumber]
  cases l.interference.label? n <;> rfl

theorem node_renumber (r : Register M) :
    (l.renumber ρ).interference.node? (ρ.reg r) = l.interference.node? r := by
  unfold Interference.node?
  rw [size_renumber]
  congr 1
  funext n
  rw [regs_renumber, Bool.eq_iff_iff]
  simp only [List.contains_iff_mem]
  exact List.mem_map_of_injective ρ.reg_injective

/-- A renumbered register is placed where the register was. -/
theorem place_renumber (colors : Assignment M) (r : Register M) :
    colors.place (l.renumber ρ).interference (ρ.reg r) =
      ρ.reg (colors.place l.interference r) := by
  cases r with
  | physical p => rfl
  | virtual v =>
      have hnode : (l.renumber ρ).interference.node? (.virtual (ρ.vreg v)) =
          l.interference.node? (.virtual v) := l.node_renumber (.virtual v)
      simp only [Assignment.place, Renumbering.reg]
      rw [hnode]
      cases (l.interference.node? (.virtual v)).bind fun n => colors.lookup n <;> rfl

end Liveness

theorem precolor_renumber (groups : List (List (Register M))) (n : Nat) :
    precolor n (groups.map (List.map ρ.reg)) = precolor n groups := by
  induction groups generalizing n with
  | nil => rfl
  | cons group groups ih =>
      have hsole : soleRegister (group.map ρ.reg) = soleRegister group := by
        have hphysical : (Register.physical? ∘ ρ.reg : Register M → Option M.Reg) =
            Register.physical? := funext ρ.physical_reg
        rw [soleRegister, List.filterMap_map, hphysical]
        rfl
      rw [List.map_cons, precolor, precolor, hsole, ih]

/-- Coloring depends on the links, the classes and the registers that nodes come with. -/
theorem color_congr {g h : Interference M} (hsize : h.size = g.size)
    (hneighbors : h.neighbors = g.neighbors) (hclass : h.class? = g.class?)
    (hown : precolor 0 (h.nodes.toList.map fun node => node.label.regs) =
      precolor 0 (g.nodes.toList.map fun node => node.label.regs)) :
    h.color = g.color := by
  -- A step looks up the neighbours and the class of the node that it colors.
  have hstep : ∀ s : Greedy M, s.step h = s.step g := by
    intro s
    simp only [Greedy.step, Greedy.process, hneighbors, hclass]
  have hsteps : ∀ (k : Nat) (s : Greedy M), s.steps h k = s.steps g k := by
    intro k
    induction k with
    | zero => exact fun _ => rfl
    | succ k ih => exact fun s => by rw [Greedy.steps, hstep, ih, Greedy.steps]
  have hstart : h.start = g.start := by
    funext colors
    simp only [Interference.start, hsize, hneighbors]
  rw [Interference.color_eq, Interference.color_eq, Interference.colorByCounts,
    Interference.colorByCounts, hown, hstart, hsize]
  simp only [hsteps]

theorem Liveness.color_renumber (l : Liveness M) :
    (l.renumber ρ).interference.color = l.interference.color := by
  refine color_congr l.size_renumber l.neighbors_renumber l.class_renumber ?_
  rw [labels_interference, labels_interference]
  exact precolor_renumber l.groups 0

/-- A candidate with a new id. -/
def Candidate.renumber (ρ : Renumbering) (a : Candidate M) : Candidate M :=
  { a with reg := ρ.vreg a.reg }

theorem Candidate.best_renumber (l : List (Candidate M)) :
    best? (l.map (renumber ρ)) = (best? l).map (renumber ρ) := by
  have hbetter : ∀ a b : Candidate M,
      (a.renumber ρ).better (b.renumber ρ) = a.better b := by
    intro a b
    simp only [better, renumber, ρ.before_vreg]
    rfl
  unfold best?
  rw [List.foldl_map]
  -- The fold starts without a candidate, which is its own renumbering.
  show List.foldl _ (Option.map (renumber ρ) none) l = _
  refine List.foldl_hom (Option.map (renumber ρ)) ?_
  intro found a
  cases found with
  | none => rfl
  | some b =>
      simp only [Option.map_some, hbetter]
      split <;> rfl

theorem spillCandidates_renumber (l : Liveness M) (blames : List (Nat × Nat))
    (excluded : List Nat) :
    spillCandidates (l.renumber ρ).interference (l.renumber ρ) blames (excluded.map ρ.num) =
      (spillCandidates l.interference l blames excluded).map (Candidate.renumber ρ) := by
  have hexcluded : ∀ v : VReg M,
      (excluded.map ρ.num).contains (ρ.vreg v).id = excluded.contains v.id := by
    -- Candidates are excluded by their ids, and different ids stay different.
    intro v
    rw [Bool.eq_iff_iff, List.contains_iff_mem, List.contains_iff_mem]
    exact List.mem_map_of_injective ρ.num_injective
  unfold spillCandidates
  rw [List.map_flatMap]
  refine congrArg (blames.flatMap ·) (funext fun entry => ?_)
  obtain ⟨n, count⟩ := entry
  simp only [l.regs_renumber, ρ.virtuals_map_reg]
  rw [List.filter_map, List.map_map, List.map_map]
  simp only [Function.comp_def, hexcluded]
  refine List.map_congr_left fun v _ => ?_
  have hranges : (l.renumber ρ).rangesOf (.virtual (ρ.vreg v)) = l.rangesOf (.virtual v) :=
    l.rangesOf_renumber (.virtual v)
  rw [hranges]
  rfl

/-- The register to spill is renumbered. -/
theorem selectSpill_renumber (name : String) (l : Liveness M) (blames : List (Nat × Nat))
    (excluded : List Nat) :
    selectSpill name (l.renumber ρ).interference (l.renumber ρ) blames (excluded.map ρ.num) =
      (selectSpill name l.interference l blames excluded).map ρ.vreg := by
  rw [selectSpill_eq, selectSpill_eq, l.size_renumber, spillCandidates_renumber,
    Candidate.best_renumber]
  cases blames.find? fun entry => !below entry.1 l.interference.size with
  | some entry => rfl
  | none => cases Candidate.best? (spillCandidates l.interference l blames excluded) <;> rfl

/-- A round of a renumbered function ends as the round of the function does. -/
theorem Function.Renumbered.round {f g : Function M} (h : f.Renumbered ρ g)
    (excluded : List Nat) :
    (∃ cause, f.round excluded = .error cause ∧ g.round (excluded.map ρ.num) = .error cause) ∨
      (∃ l colors, f.liveness = .ok l ∧ l.interference.color = .ok (.complete colors) ∧
        f.round excluded = .ok (.placed (f.place l.interference colors)) ∧
          g.round (excluded.map ρ.num) =
            .ok (.placed (g.place (l.renumber ρ).interference colors))) ∨
      ∃ v, f.round excluded = .ok (.mustSpill v) ∧
        g.round (excluded.map ρ.num) = .ok (.mustSpill (ρ.vreg v)) := by
  unfold Function.round
  rw [h.liveness]
  cases hl : f.liveness with
  | error cause => exact Or.inl ⟨_, rfl, rfl⟩
  | ok l =>
      simp only [Except.map, l.color_renumber]
      cases hcolor : l.interference.color with
      | error cause => exact Or.inl ⟨_, rfl, rfl⟩
      | ok coloring =>
          cases coloring with
          | complete colors => exact Or.inr (Or.inl ⟨l, colors, rfl, hcolor, rfl, rfl⟩)
          | stuck blames =>
              simp only [selectSpill_renumber, h.name]
              cases selectSpill f.name l.interference l blames excluded with
              | error cause => exact Or.inl ⟨_, rfl, rfl⟩
              | ok v => exact Or.inr (Or.inr ⟨v, rfl, rfl⟩)

end RegisterColoring
