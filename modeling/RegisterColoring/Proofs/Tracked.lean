import RegisterColoring.Proofs.TiedGroups

/-!
# Registers That the Analysis Follows

The scans of a function meet exactly its virtual registers: a read is pending at the top
of its block, or something in the block writes the register. So every virtual register
has an entry among the ranges and is in a group, and groups hold nothing that the
function does not mention.

Without physical registers the analysis cannot fail, and neither can coloring, which
only objects to ties between two different ones.

## Theorems

* `mem_registers_of_mem_scan`: Scans meet registers of the code.
* `Function.mem_tracked_iff`: They meet every virtual one.
* `Function.exists_group_of_virtual`: Every virtual register is in a group.
* `Function.mem_registers_of_mem_group`, `Function.mem_registers_of_mem_regs`: Groups and
  nodes hold registers of the function.
* `Function.exists_liveness`, `Liveness.exists_coloring`: Nothing fails without physical
  registers.
-/

namespace RegisterColoring

variable {M : Machine} {r : Register M}

namespace Scan

variable {s : Scan M}

theorem mem_pending_of_foldl_write {index : Nat} {defs : List (Register M)}
    (h : r ∈ (defs.foldl (write index) s).pending.map Prod.fst) : r ∈ s.pending.map Prod.fst := by
  induction defs generalizing s with
  | nil => exact h
  | cons q defs ih => exact (List.filter_sublist.map _).subset (ih h)

theorem mem_pending_of_foldl_read {index : Nat} {reads : List (Register M)}
    (h : r ∈ (reads.foldl (read index) s).pending.map Prod.fst) :
    r ∈ reads ∨ r ∈ s.pending.map Prod.fst := by
  rw [← isSome_lookup_iff, lookup_foldl_read] at h
  cases hlookup : s.pending.lookup r with
  | some e => exact Or.inr (isSome_lookup_iff.mp (by rw [hlookup]; rfl))
  | none =>
      rw [hlookup, Option.none_or] at h
      by_cases hr : r ∈ reads
      · exact Or.inl hr
      · rw [if_neg hr] at h
        exact absurd h (by simp)

end Scan

/-- What is pending has been read. -/
theorem mem_pending_scanCode {index : Nat} {code : List (Instr M)}
    (h : r ∈ (scanCode index code).pending.map Prod.fst) : ∃ i ∈ code, r ∈ i.reads := by
  induction code generalizing index with
  | nil => exact absurd h (by simp [scanCode, Scan.empty])
  | cons i rest ih =>
      rcases Scan.mem_pending_of_foldl_read h with hread | hlater
      · exact ⟨i, List.mem_cons_self, hread⟩
      · rcases ih (Scan.mem_pending_of_foldl_write hlater) with ⟨j, hj, hread⟩
        exact ⟨j, List.mem_cons_of_mem _ hj, hread⟩

/-- Scans meet registers of the code. -/
theorem mem_registers_of_mem_scan {b : Block M} (hin : b.inputs = [])
    (h : r ∈ b.scan.registers) : ∃ i ∈ b.code, r ∈ i.defs ∨ r ∈ i.reads := by
  rw [scan_eq hin] at h
  rcases List.mem_append.mp h with h | h
  · rcases mem_pending_scanCode h with ⟨i, hi, hread⟩
    exact ⟨i, hi, Or.inr hread⟩
  · rcases (mem_writes_scanCode 0 b.code).mp h with ⟨i, hi, hdef⟩
    exact ⟨i, hi, Or.inl hdef⟩

/-- Scans meet every register that aliases no other. -/
theorem mem_scan_registers (hr : r.Solitary) {b : Block M} (hin : b.inputs = []) {i : Instr M}
    (hi : i ∈ b.code) (h : r ∈ i.defs ∨ r ∈ i.reads) : r ∈ b.scan.registers := by
  by_cases hwritten : ∃ j ∈ b.code, r ∈ j.defs
  · rw [scan_eq hin]
    exact List.mem_append.mpr (Or.inr ((mem_writes_scanCode 0 b.code).mpr hwritten))
  · -- Nothing writes it, so the read is still pending at the top.
    push Not at hwritten
    have hread := h.resolve_left (hwritten i hi)
    have hexposes : b.Exposes r := ⟨by simp [hin], needs_of_not_written hwritten hi hread⟩
    exact List.mem_append.mpr
      (Or.inl (Scan.isSome_lookup_iff.mp ((exposes_scan_iff hr hin).mpr hexposes)))

namespace Function

variable {f : Function M} {l : Liveness M}

section NoInputs

variable (hin : ∀ b ∈ f.blocks, b.inputs = [])
include hin

theorem mem_registers_of_mem_scans {s : Scan M} (hs : s ∈ f.blocks.map Block.scan)
    (hr : r ∈ s.registers) : r ∈ f.registers := by
  rcases List.mem_map.mp hs with ⟨b, hb, rfl⟩
  rcases mem_registers_of_mem_scan (hin b hb) hr with ⟨i, hi, h⟩
  exact mem_registers_of_instr hb hi h

/-- The registers that the analysis follows are the virtual ones of the function. -/
theorem mem_tracked_iff : r ∈ f.tracked ↔ r ∈ f.registers ∧ r.isVirtual = true := by
  unfold tracked
  rw [mem_ascending Register.before_apart, List.mem_filter]
  refine and_congr_left fun hvirtual => ⟨fun h => ?_, fun h => ?_⟩
  · rcases List.mem_flatMap.mp h with ⟨s, hs, hr⟩
    exact mem_registers_of_mem_scans hin hs hr
  · rcases mem_registers.mp h with ⟨b, hb, ⟨v, hv, _⟩ | ⟨i, hi, hmem⟩⟩
    · exact absurd hv (by simp [hin b hb])
    · cases r with
      | physical p => exact absurd hvirtual (by simp [Register.isVirtual])
      | virtual v =>
          refine List.mem_flatMap.mpr ⟨b.scan, List.mem_map.mpr ⟨b, hb, rfl⟩, ?_⟩
          exact mem_scan_registers (Register.solitary_virtual v) (hin b hb) hi hmem

/-- Every virtual register has ranges, which may be none, and is in a group. -/
theorem exists_group_of_virtual (hl : f.liveness = .ok l) {v : VReg M}
    (hv : .virtual v ∈ f.registers) : ∃ group ∈ l.groups, .virtual v ∈ group := by
  have hranges : .virtual v ∈ l.ranges.map Prod.fst := by
    rw [liveness_eq hl]
    simp only [livenessOf, tracks, List.map_append, List.map_map]
    refine List.mem_append_left _ (List.mem_map.mpr ⟨.virtual v, ?_, rfl⟩)
    exact (mem_tracked_iff hin).mpr ⟨hv, rfl⟩
  rw [groups_eq_gather hl]
  refine exists_gather _ ((mem_ascending Register.before_apart).mpr ?_)
  exact List.mem_append_left _ hranges

/-- What ranges are kept for is a register of the function. -/
theorem mem_registers_of_mem_ranges (hl : f.liveness = .ok l)
    (hr : r ∈ l.ranges.map Prod.fst) : r ∈ f.registers := by
  rw [liveness_eq hl] at hr
  simp only [livenessOf, tracks, List.map_append, List.map_map] at hr
  rcases List.mem_append.mp hr with hr | hr
  · rcases List.mem_map.mp hr with ⟨q, hq, rfl⟩
    exact ((mem_tracked_iff hin).mp hq).1
  · rw [Ledger.map_fst_entries] at hr
    rcases List.mem_map.mp hr with ⟨key, hkey, rfl⟩
    -- The register that a family is kept under is one that is written.
    rcases List.mem_map.mp ((files_ledgerOf _).written key hkey) with ⟨⟨p, x⟩, hwrite, rfl⟩
    rcases mem_filings.mp hwrite with ⟨b, s, span, hs, hwrite, _⟩
    exact mem_registers_of_mem_scans hin (List.mem_of_getElem? hs)
      (List.mem_append_right _ (List.mem_map_of_mem (f := Prod.fst) hwrite))

omit hin in
theorem mem_registers_of_tie {pair : Register M × Register M} (h : pair ∈ f.ties) :
    pair.1 ∈ f.registers ∧ pair.2 ∈ f.registers := by
  rcases List.mem_flatMap.mp h with ⟨b, hb, h⟩
  rcases List.mem_flatMap.mp h with ⟨i, hi, h⟩
  rw [List.mem_reverse] at hi
  rcases List.mem_filterMap.mp h with ⟨⟨d, u⟩, _, h⟩
  simp only at h
  split at h
  · rename_i written read hwritten hread
    rw [Option.some.injEq] at h
    subst h
    rcases Option.bind_eq_some_iff.mp hread with ⟨op, hop, hreg⟩
    refine ⟨mem_registers_of_instr hb hi (Or.inl (List.mem_of_getElem? hwritten)),
      mem_registers_of_instr hb hi (Or.inr ?_)⟩
    exact List.mem_filterMap.mpr ⟨op, List.mem_of_getElem? hop, hreg⟩
  · exact absurd h (by simp)

/-- Groups hold registers of the function. -/
theorem mem_registers_of_mem_group (hl : f.liveness = .ok l) {group : List (Register M)}
    (hgroup : group ∈ l.groups) (hr : r ∈ group) : r ∈ f.registers := by
  rw [groups_eq_gather hl] at hgroup
  have hmem := (sublist_of_mem_gather hgroup).1.subset hr
  rw [mem_ascending Register.before_apart, List.mem_append] at hmem
  rcases hmem with hmem | hmem
  · exact mem_registers_of_mem_ranges hin hl hmem
  · rcases List.mem_flatMap.mp hmem with ⟨pair, hpair, hr⟩
    have hboth := mem_registers_of_tie hpair
    simp only [List.mem_cons, List.not_mem_nil, or_false] at hr
    rcases hr with rfl | rfl
    · exact hboth.1
    · exact hboth.2

theorem mem_registers_of_mem_regs (hl : f.liveness = .ok l) {n : Nat}
    (hr : r ∈ l.interference.regs n) : r ∈ f.registers := by
  rcases Liveness.exists_group_of_mem_regs hr with ⟨group, hgroup, hr⟩
  exact mem_registers_of_mem_group hin hl (List.mem_of_getElem? hgroup) hr

/-- Without physical registers, the analysis gives a result. -/
theorem exists_liveness (hvirtual : ∀ r ∈ f.registers, r.physical? = none) :
    ∃ l, f.liveness = .ok l := by
  have hnone : physicalLiveIn? (f.blocks.map Block.scan) = none := by
    refine List.findSome?_eq_none_iff.mpr fun entry hentry => ?_
    have hs : entry.1 ∈ f.blocks.map Block.scan := List.fst_mem_of_mem_zipIdx hentry
    have hpending : entry.1.pending.filterMap (fun e => e.1.physical?) = [] := by
      refine List.filterMap_eq_nil_iff.mpr fun e he => hvirtual _ ?_
      exact mem_registers_of_mem_scans hin hs
        (List.mem_append_left _ (List.mem_map.mpr ⟨e, he, rfl⟩))
    simp only
    rw [hpending]
    rfl
  refine ⟨f.livenessOf (f.blocks.map Block.scan), ?_⟩
  simp only [liveness, hnone]

end NoInputs

end Function

theorem precolor_of_virtual {groups : List (List (Register M))} (n : Nat)
    (h : ∀ group ∈ groups, ∀ r ∈ group, r.physical? = none) : precolor n groups = .ok [] := by
  induction groups generalizing n with
  | nil => rfl
  | cons group groups ih =>
      have hnone : group.filterMap Register.physical? = [] :=
        List.filterMap_eq_nil_iff.mpr (h group List.mem_cons_self)
      rw [precolor, ih (n + 1) fun other hother => h other (List.mem_cons_of_mem _ hother)]
      simp [soleRegister, hnone, bind, Except.bind, pure, Except.pure]

/-- The nodes of the graph are the groups. -/
theorem Liveness.labels_interference (l : Liveness M) :
    (l.interference.nodes.toList.map fun node => node.label.regs) = l.groups := by
  have hregs : l.groups = ((l.groups.map fun regs =>
      (⟨regs, regs.flatMap l.rangesOf⟩ : Group M)).zipIdx.map Prod.fst).map Group.regs := by
    rw [List.zipIdx_map_fst, List.map_map]
    exact List.map_id'' (fun _ => rfl) _ |>.symm
  refine Eq.trans ?_ hregs.symm
  rw [List.map_map]
  simp only [interference, Digraph.ofRelation, List.map_map]
  rfl

/-- Without physical registers, coloring ends with a coloring or with blames. -/
theorem Liveness.exists_coloring {l : Liveness M}
    (h : ∀ group ∈ l.groups, ∀ r ∈ group, r.physical? = none) :
    ∃ coloring, l.interference.color = .ok coloring := by
  unfold Interference.color
  rw [labels_interference, precolor_of_virtual 0 h]
  exact ⟨_, rfl⟩

end RegisterColoring
