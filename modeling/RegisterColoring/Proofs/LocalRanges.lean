import RegisterColoring.Proofs.Ranges

/-!
# Ranges Inside a Block

A register that every block writes before it reads it is live across no edge of the
graph. All its ranges start with a write and end there or with a read of the value in
the same block. Nothing else is assumed of the function, so this also holds where the
walk over the paths misses something about other registers, and where an instruction
lists the register twice among its results.

## Main definitions

* `Block.Carries`: A value that is written in a block and read up to some point of it.

## Theorems

* `mem_writesOf_scanCode`: The spans that the writes of a register leave.
* `Function.spreadOf_eq_empty`: The register is live across no edge.
* `Function.carries_of_mem_rangesOf`: The ranges of the register.
-/

namespace RegisterColoring

variable {M : Machine} {r : Register M}

/-- Instruction `start` writes `r`, and `stop` is a read of that value or the write itself. -/
def Block.Carries (b : Block M) (r : Register M) (start stop : Nat) : Prop :=
  (∃ i, b.code[start]? = some i ∧ r ∈ i.defs) ∧
    (stop = start ∨ ∃ j, stop = start + 1 + j ∧ Sees r (b.code.drop (start + 1)) j)

/-- The spans that the results of an instruction leave. Where it lists the register
    twice, the second write finds no pending read. -/
theorem Scan.mem_writesOf_foldl_write {s : Scan M} (hr : r.Solitary) (hs : s.Distinct)
    {index : Nat} {defs : List (Register M)} {span : Span}
    (h : span ∈ (defs.foldl (Scan.write index) s).writesOf r) :
    span ∈ s.writesOf r ∨ (r ∈ defs ∧ span.start = index ∧
      (span.stop = index ∨ s.pending.lookup r = some span.stop)) := by
  induction defs generalizing s with
  | nil => exact Or.inl h
  | cons q defs ih =>
      rcases ih (hs.write index q) h with hmem | ⟨hmem, hstart, hstop⟩
      · -- Recorded by now: by this write, or before any of them.
        rw [writesOf_write hr hs, List.mem_append] at hmem
        rcases hmem with hmem | hmem
        · by_cases hq : q = r
          · rw [if_pos hq, List.mem_singleton] at hmem
            refine Or.inr ⟨hq ▸ List.mem_cons_self, by rw [hmem], ?_⟩
            rw [hmem]
            cases s.pending.lookup r with
            | none => exact Or.inl rfl
            | some e => exact Or.inr rfl
          · rw [if_neg hq] at hmem
            exact absurd hmem (by simp)
        · exact Or.inl hmem
      · -- Recorded by a later write, which sees what this one has left pending.
        refine Or.inr ⟨List.mem_cons_of_mem _ hmem, hstart, hstop.imp_right fun hlookup => ?_⟩
        rw [lookup_write hr] at hlookup
        split at hlookup
        · exact absurd hlookup (by simp)
        · exact hlookup

/-- A span that a scan records starts with a write and ends there or with the last read
    of the value. -/
theorem mem_writesOf_scanCode (hr : r.Solitary) {index : Nat} {code : List (Instr M)} {span : Span}
    (h : span ∈ (scanCode index code).writesOf r) :
    ∃ k i, span.start = index + k ∧ code[k]? = some i ∧ r ∈ i.defs ∧
      (span.stop = span.start ∨
        lastSeen r (span.start + 1) (code.drop (k + 1)) = some span.stop) := by
  induction code generalizing index with
  | nil => exact absurd h (by simp [scanCode, Scan.empty, Scan.writesOf])
  | cons i rest ih =>
      rw [writesOf_scanCode_cons] at h
      rcases Scan.mem_writesOf_foldl_write hr (distinct_scanCode _ rest) h with
        hlater | ⟨hdef, hstart, hstop⟩
      · rcases ih hlater with ⟨k, j, hstart, hj, hdef, hstop⟩
        exact ⟨k + 1, j, by omega, by simpa using hj, hdef, by simpa using hstop⟩
      · rw [lookup_scanCode hr] at hstop
        refine ⟨0, i, hstart, rfl, hdef, ?_⟩
        rw [hstart]
        exact hstop

/-- If nothing is pending at the top of a block, the spans are those of the writes. -/
theorem Block.carries_of_mem_spans {b : Block M} (hr : r.Solitary) (hin : b.inputs = [])
    (hlocal : ¬ b.Exposes r) {span : Span} (h : span ∈ b.scan.spans r) :
    b.Carries r span.start span.stop := by
  have hnone : b.scan.pending.lookup r = none := by
    rw [← Option.not_isSome_iff_eq_none]
    exact fun hsome => hlocal ((exposes_scan_iff hr hin).mp hsome)
  unfold Scan.spans at h
  rw [hnone, scan_eq hin] at h
  rcases mem_writesOf_scanCode hr h with ⟨k, i, hstart, hi, hdef, hstop⟩
  rw [Nat.zero_add] at hstart
  rw [← hstart] at hi hstop
  refine ⟨⟨i, hi, hdef⟩, hstop.imp_right fun hlast => ?_⟩
  rcases lastSeen_eq_some hlast with ⟨j, hj, hsees, _⟩
  exact ⟨j, hj, hsees⟩

namespace Function

variable {f : Function M}

/-- A register that no block needs is live across no edge. -/
theorem spreadOf_eq_empty (h : (f.presence r).exposed = []) : f.spreadOf r = ⟨[], []⟩ := by
  have hlive : ∀ b, (f.presence r).liveInto ⟨[], []⟩ b = false := by
    intro b
    simp [Presence.liveInto, h]
  -- Neither an arrival nor a loop has anything to keep alive.
  have harrive : f.arrivals.foldl (f.presence r).arrive ⟨[], []⟩ = ⟨[], []⟩ :=
    List.foldl_fixed' (fun a => by simp [Presence.arrive, hlive]) _
  have hclose : (f.arrivals.filterMap Arrival.loop?).foldl (f.presence r).closeLoop ⟨[], []⟩ =
      ⟨[], []⟩ :=
    List.foldl_fixed' (fun body => by simp [Presence.closeLoop, hlive]) _
  unfold spreadOf Presence.spread
  rw [harrive]
  cases f.size with
  | zero => rfl
  | succ n => rw [settle, if_pos hclose]

/-- The ranges of a virtual register come from the scans. -/
theorem mem_vregRanges_of_mem_rangesOf {l : Liveness M} (hl : f.liveness = .ok l) {v : VReg M}
    {range : LiveRange} (h : range ∈ l.rangesOf (.virtual v)) :
    range ∈ vregRanges f.ends (f.spreadOf (.virtual v)) (.virtual v) := by
  unfold Liveness.rangesOf at h
  cases hlookup : l.ranges.lookup (.virtual v) with
  | none => simp [hlookup] at h
  | some ranges =>
      rw [hlookup, Option.getD_some] at h
      rcases List.lookup_eq_some_iff.mp hlookup with ⟨front, back, hranges, _⟩
      have hmem : (Register.virtual v, ranges) ∈ l.ranges := by
        rw [hranges]
        simp
      rw [liveness_eq hl] at hmem
      simp only [livenessOf, Ledger.entries, tracks, List.mem_append, List.mem_map] at hmem
      rcases hmem with ⟨t, ⟨q, _, rfl⟩, heq⟩ | ⟨entry, _, heq⟩
      · obtain ⟨rfl, rfl⟩ := Prod.mk.inj heq
        exact h
      · exact absurd (Prod.mk.inj heq).1 (by simp)

/-- The ranges of a register that no block needs. -/
theorem carries_of_mem_rangesOf {l : Liveness M} (hl : f.liveness = .ok l)
    (hin : ∀ b ∈ f.blocks, b.inputs = []) {v : VReg M}
    (hlocal : ∀ b ∈ f.blocks, ¬ b.Exposes (.virtual v)) {range : LiveRange}
    (h : range ∈ l.rangesOf (.virtual v)) :
    ∃ block, f.blocks[range.block]? = some block ∧
      block.Carries (.virtual v) range.start range.stop := by
  have hsolitary := Register.solitary_virtual v
  have hexposed : (f.presence (.virtual v)).exposed = [] := by
    refine List.eq_nil_iff_forall_not_mem.mpr fun b hb => ?_
    rcases (mem_exposed_iff hin hsolitary).mp hb with ⟨block, hblock, hexposes⟩
    exact hlocal block (List.mem_of_getElem? hblock) hexposes
  have hrange := mem_vregRanges_of_mem_rangesOf hl h
  unfold vregRanges at hrange
  rcases List.mem_flatMap.mp hrange with ⟨⟨⟨scan, last⟩, c⟩, hmem, hrange⟩
  have hc := List.mem_zipIdx_iff_getElem?.mp hmem
  rcases getElem?_ends.mp hc with ⟨block, hblock, rfl, rfl⟩
  rw [spreadOf_eq_empty hexposed] at hrange
  rcases mem_rangesIn.mp hrange with ⟨span, hspan, rfl⟩
  have hmem := List.mem_of_getElem? hblock
  exact ⟨block, hblock, Block.carries_of_mem_spans hsolitary (hin block hmem)
    (hlocal block hmem) hspan⟩

end Function

end RegisterColoring
