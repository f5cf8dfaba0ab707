import RegisterColoring.Machine.Flat
import RegisterColoring.Proofs.BoundedRounds
import RegisterColoring.Proofs.IntervalColoring

/-!
# Register Pressure in a Single Block

In a function of one block that passes the check, every register is written once and is
alive from there to its last read. So the interference graph is one of intervals, and the
first round of an allocation places all registers exactly if at no instruction more ranges
need a register than there are.

A range takes its register from its first instruction to the one before its last: what an
instruction reads last can make room for what it writes. Only a value that is not read takes
its register in the instruction that writes it.

## Main definitions

* `Liveness.pressure`: How many ranges need a register at an instruction.
* `Function.StraightLine`: One checked block without inputs, with registers of one class.
* `Function.LaidOut`: Every register is a node of its own, with one range.
* `Liveness.intervals`: Where the nodes need a register.

## Theorems

* `LiveRange.overlaps_iff`: Ranges overlap where both need a register.
* `Function.StraightLine.exists_range`: Every register has one range.
* `Function.StraightLine.laidOut`: What the analysis finds.
* `Function.LaidOut.drawnBy`, `Function.LaidOut.load_eq`: The graph is one of intervals, and
  their load is the pressure.
* `Function.StraightLine.complete_iff`: Which colorings are complete.
* `Function.placed_iff_pressure`: Registers are spilled only if there are too few.
-/

namespace RegisterColoring

variable {M : Machine}

namespace LiveRange

/-- The last instruction at which the range needs a register of its own. -/
def last (r : LiveRange) : Nat :=
  max r.start (r.stop - 1)

/-- The range needs a register at an instruction: it starts there, or goes on across it. -/
def needsAt (r : LiveRange) (index : Nat) : Bool :=
  decide (r.start = index ∨ r.start < index ∧ index < r.stop)

theorem needsAt_iff {r : LiveRange} {index : Nat} :
    r.needsAt index = true ↔ r.start ≤ index ∧ index ≤ r.last := by
  rw [needsAt, decide_eq_true_eq, last]
  omega

/-- Ranges of one block overlap if both need a register at the same instruction. -/
theorem overlaps_iff {r s : LiveRange} (h : r.block = s.block) :
    r.overlaps s = true ↔ r.start ≤ s.last ∧ s.start ≤ r.last := by
  simp only [overlaps, decide_eq_true h, Bool.true_and, Bool.not_eq_true', Bool.or_eq_false_iff,
    Bool.and_eq_false_iff, decide_eq_false_iff_not, last]
  omega

end LiveRange

/-- How many ranges need a register at an instruction. -/
def Liveness.pressure (l : Liveness M) (index : Nat) : Nat :=
  (l.ranges.flatMap Prod.snd).countP fun range => range.needsAt index

namespace Function

variable {f : Function M} {l : Liveness M} {c : M.Class} {block : Block M}

/-- One block that passes the check, has no inputs and has virtual registers of class `c`
    only. -/
structure StraightLine (f : Function M) (c : M.Class) (block : Block M) : Prop where
  blocks : f.blocks = [block]
  inputs : block.inputs = []
  check : f.check = .ok ()
  registers : ∀ r ∈ f.registers, ∃ v, r = .virtual v ∧ v.cls = c

instance (f : Function M) (c : M.Class) (block : Block M) : Decidable (f.StraightLine c block) :=
  decidable_of_iff (f.blocks = [block] ∧ block.inputs = [] ∧ f.check = .ok () ∧
    ∀ r ∈ f.registers, r.virtual?.map VReg.cls = some c) <| by
  simp only [Register.map_cls_eq_some_iff]
  exact ⟨fun ⟨h₁, h₂, h₃, h₄⟩ => ⟨h₁, h₂, h₃, h₄⟩,
    fun h => ⟨h.blocks, h.inputs, h.check, h.registers⟩⟩

namespace StraightLine

variable (h : f.StraightLine c block)
include h

theorem inputs_eq_nil : ∀ b ∈ f.blocks, b.inputs = [] := by
  intro b hb
  rw [h.blocks, List.mem_singleton] at hb
  rw [hb, h.inputs]

theorem eq_of_getElem {b : Nat} {other : Block M} (hb : f.blocks[b]? = some other) :
    b = 0 ∧ other = block := by
  rw [h.blocks] at hb
  cases b with
  | zero => exact ⟨rfl, (Option.some.inj hb).symm⟩
  | succ b => exact absurd hb (by simp)

theorem getElem_zero : f.blocks[0]? = some block := by
  rw [h.blocks]
  rfl

theorem oneClass : f.OneClass := by
  intro v w hv hw hid
  rcases h.registers _ hv with ⟨v', hv', hcls⟩
  rcases h.registers _ hw with ⟨w', hw', hcls'⟩
  obtain rfl := Register.virtual.inj hv'
  obtain rfl := Register.virtual.inj hw'
  exact congrArg₂ VReg.mk hid (hcls.trans hcls'.symm)

theorem strict (v : VReg M) : f.Strict (.virtual v) :=
  (SingleAssignment.of_check h.check).strict h.oneClass v

/-- Nothing comes before the block, so it writes what it reads. -/
theorem not_exposes (v : VReg M) : ¬ block.Exposes (.virtual v) := fun hexposes =>
  not_available_entry _ ((h.strict v).available_of_exposes h.getElem_zero hexposes)

theorem not_liveInto (v : VReg M) (b : Nat) : ¬ f.LiveInto (.virtual v) b := by
  intro hlive
  -- However far ahead the read is, it would have to be at the top of the one block.
  induction hlive with
  | here hb hexposes => exact h.not_exposes v ((h.eq_of_getElem hb).2 ▸ hexposes)
  | there _ _ _ ih => exact ih

theorem exists_write {v : VReg M} (hv : .virtual v ∈ f.registers) :
    ∃ (a : Nat) (i : Instr M), block.code[a]? = some i ∧ .virtual v ∈ i.defs := by
  rcases mem_registers.mp hv with ⟨b, hb, ⟨w, hw, _⟩ | ⟨i, hi, hmem⟩⟩
  · rw [h.inputs_eq_nil b hb] at hw
    exact absurd hw (by simp)
  · rw [h.blocks, List.mem_singleton] at hb
    subst hb
    rcases List.getElem?_of_mem hi with ⟨k, hk⟩
    rcases hmem with hdef | hread
    · exact ⟨k, i, hk, hdef⟩
    · -- A read has a write in front of it, in this block.
      rcases h.strict v 0 b k i h.getElem_zero hk hread with
        (⟨w, hw, _⟩ | ⟨j, hj, hdef⟩) | havailable
      · rw [h.inputs] at hw
        exact absurd hw (by simp)
      · rcases List.getElem?_of_mem (List.mem_of_mem_take hj) with ⟨a, ha⟩
        exact ⟨a, j, ha, hdef⟩
      · exact absurd havailable (not_available_entry _)

/-- A register is written by one instruction. -/
theorem write_unique {v : VReg M} {a a' : Nat} {i i' : Instr M} (ha : block.code[a]? = some i)
    (hdef : .virtual v ∈ i.defs) (ha' : block.code[a']? = some i') (hdef' : .virtual v ∈ i'.defs) :
    a = a' := by
  have hblock : block ∈ f.blocks := List.mem_of_getElem? h.getElem_zero
  have hnodup := (Block.ids_nodup_iff.mp ((SingleAssignment.of_check h.check).ids_nodup hblock)).2
  -- The later of two writes would repeat an id.
  have hnot : ∀ {k m : Nat} {j n : Instr M}, block.code[k]? = some j → .virtual v ∈ j.defs →
      block.code[m]? = some n → .virtual v ∈ n.defs → ¬ k < m := by
    intro k m j n hk hj hm hn hlt
    refine (hnodup m n hm).2 v.id (Instr.mem_defIds.mpr ⟨v, hn, rfl⟩) ?_
    refine List.mem_append_right _ (List.mem_flatMap.mpr ⟨j, mem_take_iff.mpr ⟨k, hlt, hk⟩, ?_⟩)
    exact Instr.mem_defIds.mpr ⟨v, hj, rfl⟩
  have hle := hnot ha hdef ha' hdef'
  have hge := hnot ha' hdef' ha hdef
  omega

theorem trackable (v : VReg M) : f.Trackable (.virtual v) where
  inputs := h.inputs_eq_nil
  reached _ := (SingleAssignment.of_check h.check).exists_walk
  solitary := Register.solitary_virtual v
  once b hb i hi := (SingleAssignment.of_check h.check).count_defs hb hi v
  apart b hb i hi hdef := by
    rcases List.getElem?_of_mem hb with ⟨k, hk⟩
    exact (SingleAssignment.of_check h.check).reads_apart hk hi hdef
  settled := Presence.Settled.of_not_through fun b hthrough =>
    h.not_liveInto v b ((live_iff h.inputs_eq_nil (Register.solitary_virtual v)).mp hthrough.live)

/-- The one range of a register, from its write to the last read. -/
theorem exists_range (hl : f.liveness = .ok l) {v : VReg M} (hv : .virtual v ∈ f.registers) :
    ∃ range, l.rangesOf (.virtual v) = [range] ∧ range.block = 0 ∧
      range.start < block.code.length := by
  rcases h.exists_write hv with ⟨a, i, ha, hdef⟩
  have hdefines : f.Defines 0 (.virtual v) :=
    ⟨block, h.getElem_zero, Or.inr ⟨i, List.mem_of_getElem? ha, hdef⟩⟩
  have hout : ¬ f.LiveOutOf (.virtual v) 0 := fun ⟨b, _, hlive⟩ => h.not_liveInto v b hlive
  have hstops : ∀ stop, block.Stops (.virtual v) (f.LiveOutOf (.virtual v) 0) (a + 1) a stop ↔
      stop = (lastSeen (.virtual v) (a + 1) (block.code.drop (a + 1))).getD a := fun _ =>
    Block.stops_iff_of_local fun hlive => absurd hlive hout
  rw [rangesOf_eq hl h.inputs_eq_nil ⟨0, hdefines⟩]
  -- The ranges are those of the writes, of which there is one.
  have hmem : ∀ range, range ∈ vregRanges f.ends (f.spreadOf (.virtual v)) (.virtual v) ↔
      range = ⟨0, a, (lastSeen (.virtual v) (a + 1) (block.code.drop (a + 1))).getD a⟩ := by
    rintro ⟨b, start, stop⟩
    rw [(h.trackable v).mem_vregRanges, LiveRange.mk.injEq]
    constructor
    · rintro ⟨other, hother, ⟨_, hlive, _⟩ | ⟨j, hj, hjdef, hstop⟩⟩
      · exact absurd hlive (h.not_liveInto v b)
      · obtain ⟨rfl, rfl⟩ := h.eq_of_getElem hother
        obtain rfl := h.write_unique ha hdef hj hjdef
        exact ⟨rfl, rfl, (hstops stop).mp hstop⟩
    · rintro ⟨rfl, rfl, rfl⟩
      exact ⟨block, h.getElem_zero, Or.inr ⟨i, ha, hdef, (hstops _).mpr rfl⟩⟩
  have hperm := (List.perm_ext_iff_of_nodup (h.trackable v).nodup_vregRanges
    (List.nodup_singleton _)).mpr fun range => (hmem range).trans List.mem_singleton.symm
  exact ⟨_, List.perm_singleton.mp hperm, rfl, (List.getElem?_eq_some_iff.mp ha).1⟩

end StraightLine

/-- Every register is a node of its own and has one range, in block 0. -/
structure LaidOut (f : Function M) (l : Liveness M) (length : Nat) (regs : List (Register M)) :
    Prop where
  groups : l.groups = regs.map fun r => [r]
  ranges : l.ranges = regs.map fun r => (r, l.rangesOf r)
  registers : ∀ r ∈ regs, r ∈ f.registers
  single : ∀ r ∈ regs, ∃ range, l.rangesOf r = [range] ∧ range.block = 0 ∧ range.start < length

/-- Without physical registers, ranges are kept for the virtual ones alone. -/
theorem ranges_of_virtual (hin : ∀ b ∈ f.blocks, b.inputs = []) (hl : f.liveness = .ok l)
    (hvirtual : ∀ r ∈ f.registers, r.isVirtual = true) :
    ∃ regs : List (Register M), regs.Pairwise (fun r s => r.before s = true) ∧
      (∀ r ∈ regs, r ∈ f.registers) ∧ l.ranges = regs.map fun r => (r, l.rangesOf r) := by
  have hkept := fun r => mem_registers_of_mem_ranges hin hl (r := r)
  refine ⟨_, pairwise_ascending Register.before_trans
    (((f.blocks.map Block.scan).flatMap Scan.registers).filter Register.isVirtual),
    fun r hr => ((mem_tracked_iff hin).mp hr).1, ?_⟩
  unfold Liveness.rangesOf
  rw [liveness_eq hl] at hkept ⊢
  simp only [livenessOf, tracks, List.map_append, List.map_map, List.mem_append] at hkept
  simp only [livenessOf, tracks, List.map_map]
  -- What is kept for a physical register would have to be kept for one of the function.
  have hnone : (ledgerOf (f.blocks.map Block.scan)).entries = [] := by
    refine List.eq_nil_iff_forall_not_mem.mpr fun entry hentry => ?_
    have hmem := List.mem_map_of_mem (f := Prod.fst) hentry
    have hreg := hvirtual _ (hkept entry.1 (Or.inr hmem))
    rw [Ledger.map_fst_entries] at hmem
    rcases List.mem_map.mp hmem with ⟨key, _, heq⟩
    rw [← heq] at hreg
    exact absurd hreg (by simp [Register.isVirtual])
  rw [hnone, List.append_nil]
  refine List.map_congr_left fun r hr => ?_
  have hfound := lookup_map_self (fun q => vregRanges f.ends (f.spreadOf q) q) hr
  simp only [Function.comp_def]
  exact congrArg (fun o => (r, Option.getD o [])) hfound.symm

namespace StraightLine

variable (h : f.StraightLine c block)
include h

theorem isVirtual : ∀ r ∈ f.registers, r.isVirtual = true := by
  intro r hr
  rcases h.registers r hr with ⟨v, rfl, _⟩
  rfl

/-- What the analysis of a single block finds. -/
theorem laidOut (htied : ∀ o, M.tied o = []) (hl : f.liveness = .ok l) :
    ∃ regs, f.LaidOut l block.code.length regs := by
  rcases ranges_of_virtual h.inputs_eq_nil hl h.isVirtual with ⟨regs, hsorted, hregs, hranges⟩
  refine ⟨regs, ?_, hranges, hregs, fun r hr => ?_⟩
  · have hties := ties_eq_nil_of_tied htied f
    have hfst : l.ranges.map Prod.fst = regs := by
      rw [hranges, List.map_map]
      exact List.map_id regs
    have hroot : ∀ r, f.tiedSets.rootD r = r := fun r => by
      rw [tiedSets, hties]
      rfl
    -- No two registers are tied, so each is gathered under its own name.
    rw [groups_eq_gather hl, hties, List.flatMap_nil, List.append_nil, hfst,
      ascending_eq_self hsorted]
    refine gather_of_nodup ?_
    rw [List.map_congr_left fun r _ => hroot r, List.map_id']
    refine hsorted.imp fun {r s} hrs heq => ?_
    rw [heq, Register.before_irrefl] at hrs
    exact absurd hrs (by simp)
  · rcases h.registers r (hregs r hr) with ⟨v, rfl, _⟩
    exact h.exists_range hl (hregs _ hr)

end StraightLine

end Function

/-- The range that is kept for a node. -/
def Liveness.nodeRange (l : Liveness M) (n : Nat) : LiveRange :=
  (l.ranges[n]?.bind fun entry => entry.2.head?).getD ⟨0, 0, 0⟩

/-- The instructions at which the ranges of the nodes need a register. -/
def Liveness.intervals (l : Liveness M) : Intervals where
  first n := (l.nodeRange n).start
  last n := (l.nodeRange n).last
  first_le_last _ := Nat.le_max_left _ _

namespace Function

namespace LaidOut

variable {f : Function M} {l : Liveness M} {length : Nat} {regs : List (Register M)}
  (h : f.LaidOut l length regs)
include h

theorem size_eq : l.interference.size = regs.length := by
  rw [Liveness.size_interference, h.groups, List.length_map]

theorem exists_reg {n : Nat} (hn : n < l.interference.size) :
    ∃ r, regs[n]? = some r ∧ r ∈ f.registers ∧ l.interference.regs n = [r] ∧
      l.rangesOf r = [l.nodeRange n] ∧ (l.nodeRange n).block = 0 ∧
        (l.nodeRange n).start < length := by
  rw [h.size_eq] at hn
  have hr := List.getElem?_eq_getElem hn
  have hmem := List.mem_of_getElem? hr
  rcases h.single _ hmem with ⟨range, hrange, hblock, hstart⟩
  have hnode : l.nodeRange n = range := by
    rw [Liveness.nodeRange, h.ranges, List.getElem?_map, hr]
    simp [hrange]
  refine ⟨_, hr, h.registers _ hmem, Liveness.regs_interference ?_, hnode ▸ hrange, hnode ▸ hblock,
    hnode ▸ hstart⟩
  rw [h.groups, List.getElem?_map, hr]
  rfl

/-- The ranges of all registers are those of the nodes. -/
theorem flatMap_ranges :
    l.ranges.flatMap Prod.snd = (List.range l.interference.size).map l.nodeRange := by
  have hsingle : l.ranges.flatMap Prod.snd = regs.map fun r => (l.rangesOf r).headD ⟨0, 0, 0⟩ := by
    rw [h.ranges, List.flatMap_map, List.map_eq_flatMap]
    refine List.flatMap_congr fun r hr => ?_
    rcases h.single r hr with ⟨range, hrange, _⟩
    rw [hrange]
    rfl
  -- Nodes are numbered in the order of the registers.
  rw [hsingle, h.size_eq]
  refine List.ext_getElem (by simp) fun n hn _ => ?_
  rw [List.length_map] at hn
  rcases h.exists_reg (h.size_eq ▸ hn) with ⟨r, hr, _, _, hrange, _⟩
  rw [List.getElem_map, List.getElem_map, List.getElem_range,
    (List.getElem?_eq_some_iff.mp hr).2, hrange]
  rfl

/-- The intervals that cover an instruction are the ranges that need a register there. -/
theorem load_eq (index : Nat) : l.intervals.load l.interference.size index = l.pressure index := by
  rw [Liveness.pressure, h.flatMap_ranges, List.countP_map, Intervals.load]
  refine List.countP_congr fun n _ => ?_
  rw [decide_eq_true_eq]
  exact LiveRange.needsAt_iff.symm

theorem class_eq {c : M.Class} (hclass : ∀ r ∈ f.registers, ∃ v, r = .virtual v ∧ v.cls = c)
    {n : Nat} (hn : n < l.interference.size) : l.interference.class? n = some c := by
  rcases h.exists_reg hn with ⟨r, hr, hreg, _⟩
  rcases hclass r hreg with ⟨v, rfl, rfl⟩
  rw [Interference.class?, Liveness.label_interference, h.groups, List.getElem?_map, hr]
  rfl

/-- The interference graph is that of the intervals. -/
theorem drawnBy (hfree : ∀ n, ¬ l.interference.HoldsPhysical n) :
    l.interference.DrawnBy l.intervals := by
  intro n hn m
  rcases h.exists_reg hn with ⟨r, _, _, hregs, hrange, hblock, _⟩
  have hlinked := Liveness.isLinked_iff (l := l) (n := n) (m := m)
  rw [Digraph.isLinked, List.contains_iff_mem] at hlinked
  refine hlinked.trans ⟨?_, ?_⟩
  · rintro ⟨hne, hphysical | ⟨r', hr', d, hd, a, ha, b, hb, hoverlap⟩⟩
    · exact absurd hphysical.1 (hfree n)
    · have hm : m < l.interference.size := by
        rcases Liveness.exists_group_of_mem_regs hd with ⟨group, hgroup, _⟩
        rw [Liveness.size_interference]
        exact (List.getElem?_eq_some_iff.mp hgroup).1
      rcases h.exists_reg hm with ⟨q, _, _, hregs', hrange', hblock', _⟩
      rw [hregs, List.mem_singleton] at hr'
      rw [hregs', List.mem_singleton] at hd
      subst hr' hd
      rw [hrange, List.mem_singleton] at ha
      rw [hrange', List.mem_singleton] at hb
      subst ha hb
      exact ⟨hm, hne, (LiveRange.overlaps_iff (hblock.trans hblock'.symm)).mp hoverlap⟩
  · rintro ⟨hm, hne, hmeet⟩
    rcases h.exists_reg hm with ⟨q, _, _, hregs', hrange', hblock', _⟩
    refine ⟨hne, Or.inr ⟨r, by simp [hregs], q, by simp [hregs'], l.nodeRange n, by simp [hrange],
      l.nodeRange m, by simp [hrange'], ?_⟩⟩
    exact (LiveRange.overlaps_iff (hblock.trans hblock'.symm)).mpr hmeet

end LaidOut

/-- The first round of an allocation places all registers exactly if it takes no other. -/
theorem allocate_eq_iff {f : Function M} {l : Liveness M} (hin : ∀ b ∈ f.blocks, b.inputs = [])
    (hvirtual : f.hasVirtual = true) (hl : f.liveness = .ok l) (supply : Supply) :
    (f.allocate supply).result = .ok ⟨1, [], []⟩ ↔
      ∃ colors, l.interference.color = .ok (.complete colors) := by
  constructor
  · intro hok
    rcases allocate_cases hok with ⟨hnone, _⟩ | hallocates
    · rw [hvirtual] at hnone
      exact absurd hnone (by simp)
    · generalize (f.allocate supply).workspace = out at hallocates
      cases hallocates with
      | placed hl' hcolors =>
          rw [hl, Except.ok.injEq] at hl'
          exact ⟨_, hl' ▸ hcolors⟩
  · rintro ⟨colors, hcolors⟩
    have hround : f.round [] = .ok (.placed (f.place l.interference colors)) := by
      unfold Function.round
      simp only [hl, hcolors]
    rw [allocate, if_pos hvirtual, remainingInput_eq_none hin]
    simp only
    rw [allocateRounds]
    simp only [hround]

/-- The coloring of a single block is complete exactly if at no instruction more ranges need
    a register than there are. -/
theorem StraightLine.complete_iff {f : Function M} {l : Liveness M} {c : M.Class}
    {block : Block M} (h : f.StraightLine c block) (htied : ∀ o, M.tied o = []) (hM : M.Disjoint)
    (hmembers : (M.members c).Nodup) (hl : f.liveness = .ok l) :
    (∃ colors, l.interference.color = .ok (.complete colors)) ↔
      ∀ index < block.code.length, l.pressure index ≤ (M.members c).length := by
  rcases h.laidOut htied hl with ⟨regs, hlaid⟩
  have hfree : ∀ n, ¬ l.interference.HoldsPhysical n := by
    rintro n ⟨p, hp⟩
    have hvirtual := h.isVirtual _ (mem_registers_of_mem_regs h.inputs_eq_nil hl hp)
    exact absurd hvirtual (by simp [Register.isVirtual])
  have hown : ∀ n, l.interference.own? n = none := fun n =>
    Interference.own_eq_none_iff.mpr (hfree n)
  have hclass : ∀ n < l.interference.size, l.interference.class? n = some c := fun n hn =>
    hlaid.class_eq h.registers hn
  have hdrawn := hlaid.drawnBy hfree
  constructor
  · rintro ⟨colors, hcolors⟩ index _
    rw [← hlaid.load_eq]
    exact Interference.load_le l.mutual_interference hown hclass hdrawn hcolors index
  · intro hpressure
    refine Interference.exists_complete l.mutual_interference hown hclass hdrawn
      l.nodup_neighbors hM hmembers fun n hn => ?_
    -- An interval starts at an instruction.
    rcases hlaid.exists_reg hn with ⟨_, _, _, _, _, _, hstart⟩
    rw [hlaid.load_eq]
    exact hpressure _ hstart

/-- In a single block, the first round places all registers, and the allocation takes no
    other round, exactly if at no instruction more ranges need a register than there are. -/
theorem placed_iff_pressure {f : Function flat} {n : Nat} {block : Block flat}
    (hf : f.StraightLine ⟨n⟩ block) (hvirtual : ∃ v, .virtual v ∈ f.registers) (supply : Supply) :
    ∃ l, f.liveness = .ok l ∧
      ((∃ colors, l.interference.color = .ok (.complete colors)) ↔
        ∀ index < block.code.length, l.pressure index ≤ min n 16) ∧
      ((f.allocate supply).result = .ok ⟨1, [], []⟩ ↔
        ∀ index < block.code.length, l.pressure index ≤ min n 16) := by
  have hmembers : (flat.members (FlatClass.mk n)).Nodup :=
    (List.nodup_finRange 16).sublist (List.take_sublist _ _)
  have hcount : (flat.members (FlatClass.mk n)).length = min n 16 := by
    rw [List.length_take, List.length_finRange]
  rcases exists_liveness hf.inputs_eq_nil (fun r hr => by
    rcases hf.registers r hr with ⟨v, rfl, _⟩
    rfl) with ⟨l, hl⟩
  have hcomplete := hf.complete_iff (fun o => Empty.elim o) (fun _ _ h => h) hmembers hl
  rw [hcount] at hcomplete
  refine ⟨l, hl, hcomplete, ?_⟩
  exact (allocate_eq_iff hf.inputs_eq_nil (hasVirtual_iff.mpr hvirtual) hl supply).trans hcomplete

/-- Three values that are needed at once, and then two beside one that nothing reads. -/
def threeAtOnce (n : Nat) : Block flat :=
  let r (k : Nat) : VReg flat := ⟨k, FlatClass.mk n⟩
  ⟨[], [
    Sample.assign .copy (r 0) [.imm 1], Sample.assign .copy (r 1) [.imm 2],
    Sample.assign .copy (r 2) [.imm 3],
    Sample.assign .add (r 3) [.ofVReg (r 0), .ofVReg (r 1)],
    Sample.assign .copy (r 4) [.imm 4],
    Sample.assign .add (r 5) [.ofVReg (r 3), .ofVReg (r 2)],
    Sample.perform .ret [.ofVReg (r 5)]]⟩

/-- Three registers are enough, and two are not. -/
theorem threeAtOnce_placed_iff :
    ((Function.mk "three" [threeAtOnce 3]).allocate ⟨6, 0⟩).result = .ok ⟨1, [], []⟩ ∧
      ((Function.mk "three" [threeAtOnce 2]).allocate ⟨6, 0⟩).result ≠ .ok ⟨1, [], []⟩ := by
  have hthree : (Function.mk "three" [threeAtOnce 3]).StraightLine ⟨3⟩ (threeAtOnce 3) := by decide
  have htwo : (Function.mk "three" [threeAtOnce 2]).StraightLine ⟨2⟩ (threeAtOnce 2) := by decide
  constructor
  · rcases placed_iff_pressure hthree ⟨⟨0, FlatClass.mk 3⟩, by decide⟩ ⟨6, 0⟩ with ⟨l, hl, _, hiff⟩
    refine hiff.mpr ?_
    rw [liveness_eq hl]
    decide
  · rcases placed_iff_pressure htwo ⟨⟨0, FlatClass.mk 2⟩, by decide⟩ ⟨6, 0⟩ with ⟨l, hl, _, hiff⟩
    -- The third value is written while the first two wait for the addition.
    refine fun hok => absurd (hiff.mp hok 2 (by decide)) ?_
    rw [liveness_eq hl]
    decide

end Function

end RegisterColoring
