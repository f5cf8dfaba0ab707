import Mathlib.Algebra.BigOperators.Group.Finset.Basic
import Mathlib.Order.Lattice.Nat
import RegisterColoring.Proofs.FamilyRanges

/-!
# Well-Formed Ranges

What holds of the ranges of every function, whether it is well formed or not. Each range
lies in an existing block, starts no later than it ends and ends no later than the block.
The ranges of a register are listed in ascending order, none of them twice.

Both come from the way the ranges are built. They are listed block by block, and within a
block they are spans of its scan, of which some are stretched to the end of the block or
replaced by the whole block. The scan runs backwards, so what it still has pending was
read at the current instruction or later, and a write that closes it starts no later.

The cost of a register counts the instructions from its earliest start to its latest end
in each block. As no start is later than its end, the difference is never cut off at zero.

Neither the walk over the simple paths nor the passes over the loops needs the bound that
its definition has. `Explores` and `Repeats` describe the same computations without one. That
they lead to the results of the bounded ones says that they come to an end by themselves.

## Main definitions

* `Function.WellPlaced`: Ascending ranges that lie in existing blocks.
* `LiveRange.earliest`, `LiveRange.latest`: The ends of what ranges cover of a block.
* `Explores`, `Repeats`: The computations without bounds.
* `Function.Terminates`: Their results are those of the bounded ones.
* `Function.WellRanged`: What holds of the result of every analysis.

## Theorems

* `Block.fits_scan`: A scan stays within its block.
* `Function.wellPlaced_rangesOf`: The ranges of every register are well formed.
* `extent_eq_sum`: What the cost of a register counts.
* `Function.mem_loops_iff`: The loops that the walk records.
* `Function.mem_through_of_loop`: Loops are closed.
* `Function.liveness_wellRanged`: The analysis ends and its ranges are well formed.
-/

namespace RegisterColoring

variable {M : Machine} {r : Register M}

/-- The span starts no later than it ends, and ends no later than `last`. -/
def Span.Within (s : Span) (last : Nat) : Prop :=
  s.start ≤ s.stop ∧ s.stop ≤ last

namespace Scan

variable {s : Scan M} {index last : Nat}

/-- The scan has come down to instruction `index` of a block that ends with `last`. -/
structure Fits (s : Scan M) (index last : Nat) : Prop where
  pending : ∀ entry ∈ s.pending, index ≤ entry.2 ∧ entry.2 ≤ last
  writes : ∀ entry ∈ s.writes, entry.2.Within last

theorem Fits.write (h : s.Fits index last) (hindex : index ≤ last) (r : Register M) :
    (s.write index r).Fits index last := by
  constructor
  · intro entry hentry
    exact h.pending entry (List.mem_filter.mp hentry).1
  · intro entry hentry
    rcases List.mem_cons.mp hentry with rfl | hentry
    · -- The write ends where it starts, or with a pending read, which is not above it.
      cases hread : s.lastRead? r with
      | none => exact ⟨Nat.le_refl _, hindex⟩
      | some e =>
          rcases List.mem_map.mp (List.max?_mem hread) with ⟨read, hmem, rfl⟩
          exact h.pending read (List.mem_filter.mp hmem).1
    · exact h.writes entry hentry

theorem Fits.read (h : s.Fits index last) (hindex : index ≤ last) (r : Register M) :
    (s.read index r).Fits index last := by
  unfold Scan.read
  by_cases hmet : (s.pending.lookup r).isSome = true
  · rw [if_pos hmet]
    exact h
  · rw [if_neg hmet]
    refine ⟨fun entry hentry => ?_, h.writes⟩
    rcases List.mem_cons.mp hentry with rfl | hentry
    · exact ⟨Nat.le_refl _, hindex⟩
    · exact h.pending entry hentry

/-- Passing an instruction keeps the scan within the block. -/
theorem Fits.instr (h : s.Fits (index + 1) last) (hindex : index ≤ last) (i : Instr M) :
    (s.instr index i).Fits index last := by
  have hcome : s.Fits index last := by
    refine ⟨fun entry hentry => ?_, h.writes⟩
    have hbounds := h.pending entry hentry
    omega
  have hwritten : (i.defs.foldl (Scan.write index) s).Fits index last :=
    foldl_inv (I := fun t : Scan M => t.Fits index last)
      (fun t q _ ht => ht.write hindex q) hcome
  exact foldl_inv (I := fun t : Scan M => t.Fits index last)
    (fun t q _ ht => ht.read hindex q) hwritten

/-- The spans of a scan that has come to the top of its block. -/
theorem Fits.spans (h : s.Fits 0 last) {span : Span} (hspan : span ∈ s.spans r) :
    span.Within last := by
  unfold Scan.spans at hspan
  rcases List.mem_append.mp hspan with hspan | hspan
  · rw [Option.mem_toList, Option.map_eq_some_iff] at hspan
    rcases hspan with ⟨e, hlookup, rfl⟩
    rcases List.lookup_eq_some_iff.mp hlookup with ⟨front, back, hpending, _⟩
    have hbounds := h.pending (r, e) (by simp [hpending])
    exact ⟨Nat.zero_le e, hbounds.2⟩
  · rcases List.mem_filterMap.mp hspan with ⟨⟨w, recorded⟩, hentry, hsome⟩
    simp only at hsome
    by_cases hw : w = r
    · rw [if_pos hw, Option.some.injEq] at hsome
      rw [← hsome]
      exact h.writes _ hentry
    · rw [if_neg hw] at hsome
      exact absurd hsome (by simp)

end Scan

theorem fits_scanCode (index last : Nat) (code : List (Instr M))
    (h : index + code.length ≤ last + 1) : (scanCode index code).Fits index last := by
  induction code generalizing index with
  | nil => exact ⟨by simp [scanCode, Scan.empty], by simp [scanCode, Scan.empty]⟩
  | cons i rest ih =>
      rw [List.length_cons] at h
      exact (ih (index + 1) (by omega)).instr (by omega) i

/-- The inputs are written at the first instruction, above which nothing is pending. -/
theorem Block.fits_scan (b : Block M) : b.scan.Fits 0 b.lastIndex := by
  have hcode : (scanCode 0 b.code).Fits 0 b.lastIndex := by
    refine fits_scanCode 0 b.lastIndex b.code ?_
    unfold Block.lastIndex
    omega
  exact foldl_inv (I := fun t : Scan M => t.Fits 0 b.lastIndex)
    (fun t q _ ht => ht.write (Nat.zero_le _) q) hcode

/-- Stretching a span to the end of the block keeps it within. -/
theorem within_of_mem_stretch {last : Nat} {spans : List Span}
    (h : ∀ span ∈ spans, span.Within last) {span : Span} (hspan : span ∈ stretch last spans) :
    span.Within last := by
  induction spans with
  | nil => exact absurd hspan (by simp [stretch])
  | cons first rest ih =>
      have hfirst := h first List.mem_cons_self
      have hrest := fun t ht => h t (List.mem_cons_of_mem first ht)
      unfold stretch at hspan
      split at hspan
      · rcases List.mem_cons.mp hspan with rfl | hspan
        · exact ⟨Nat.le_trans hfirst.1 hfirst.2, Nat.le_refl last⟩
        · exact hrest span hspan
      · rcases List.mem_cons.mp hspan with rfl | hspan
        · exact hfirst
        · exact ih hrest hspan

theorem within_of_mem_spreadSpans {s : Spread} {b last : Nat} {spans : List Span}
    (h : ∀ span ∈ spans, span.Within last) {span : Span}
    (hspan : span ∈ spreadSpans s b last spans) : span.Within last := by
  unfold spreadSpans at hspan
  split at hspan
  · rw [List.mem_singleton.mp hspan]
    exact ⟨Nat.zero_le last, Nat.le_refl last⟩
  · split at hspan
    · exact within_of_mem_stretch h hspan
    · exact h span hspan

/-- Ranges are ordered by block, then by start, then by end. -/
def LiveRange.Before (a b : LiveRange) : Prop :=
  a.block < b.block ∨
    a.block = b.block ∧ (a.start < b.start ∨ a.start = b.start ∧ a.stop < b.stop)

namespace Function

variable {f : Function M} {l : Liveness M}

/-- The ranges lie within existing blocks and are in strictly ascending order. -/
structure WellPlaced (f : Function M) (ranges : List LiveRange) : Prop where
  inside : ∀ range ∈ ranges, ∃ block, f.blocks[range.block]? = some block ∧
    range.start ≤ range.stop ∧ range.stop ≤ block.lastIndex
  ascending : ranges.Pairwise LiveRange.Before

theorem WellPlaced.start_le_stop {ranges : List LiveRange} (h : f.WellPlaced ranges) :
    ∀ range ∈ ranges, range.start ≤ range.stop := by
  intro range hrange
  rcases h.inside range hrange with ⟨_, _, hordered, _⟩
  exact hordered

theorem WellPlaced.nodup {ranges : List LiveRange} (h : f.WellPlaced ranges) : ranges.Nodup := by
  refine h.ascending.imp fun {a b} hab heq => ?_
  rw [heq] at hab
  unfold LiveRange.Before at hab
  omega

/-- Ranges that are listed block by block are well placed if the spans are. -/
theorem wellPlaced_flatMap {α : Type} {items : List α} {spans : α × Nat → List Span}
    (h : ∀ b x, items[b]? = some x → ∃ block, f.blocks[b]? = some block ∧
      ∀ span ∈ spans (x, b), span.Within block.lastIndex) :
    f.WellPlaced (items.zipIdx.flatMap fun item => rangesIn item.2 (spans item)) := by
  constructor
  · intro range hrange
    rcases List.mem_flatMap.mp hrange with ⟨⟨x, b⟩, hmem, hrange⟩
    rcases h b x (List.mem_zipIdx_iff_getElem?.mp hmem) with ⟨block, hb, hwithin⟩
    rcases mem_rangesIn.mp hrange with ⟨span, hspan, rfl⟩
    exact ⟨block, hb, hwithin span hspan⟩
  · exact (pairwise_flatMap_rangesIn items spans).imp LiveRange.before_iff.mp

theorem wellPlaced_vregRanges (f : Function M) (s : Spread) (r : Register M) :
    f.WellPlaced (vregRanges f.ends s r) := by
  refine wellPlaced_flatMap ?_
  rintro b ⟨scan, last⟩ hb
  rcases getElem?_ends.mp hb with ⟨block, hblock, rfl, rfl⟩
  refine ⟨block, hblock, fun span hspan => ?_⟩
  exact within_of_mem_spreadSpans (fun t ht => block.fits_scan.spans ht) hspan

theorem wellPlaced_physicalRanges (f : Function M) (written : List M.Reg) (key : M.Reg) :
    f.WellPlaced (physicalRanges (f.blocks.map Block.scan) written key) := by
  refine wellPlaced_flatMap ?_
  intro b scan hb
  rw [List.getElem?_map, Option.map_eq_some_iff] at hb
  rcases hb with ⟨block, hblock, rfl⟩
  refine ⟨block, hblock, fun span hspan => ?_⟩
  rcases List.mem_filterMap.mp hspan with ⟨⟨q, recorded⟩, hentry, hsome⟩
  cases q with
  | virtual v => exact absurd hsome (by simp)
  | physical p =>
      by_cases hkey : widest written p = key
      · simp only [hkey, if_true, Option.some.injEq] at hsome
        rw [← hsome]
        exact block.fits_scan.writes _ hentry
      · simp only [hkey, if_false] at hsome
        exact absurd hsome (by simp)

/-- The ranges of every register are well formed, in any function that can be analysed. -/
theorem wellPlaced_rangesOf (hl : f.liveness = .ok l) (r : Register M) :
    f.WellPlaced (l.rangesOf r) := by
  unfold Liveness.rangesOf
  cases hlookup : l.ranges.lookup r with
  | none => exact ⟨by simp, by simp⟩
  | some ranges =>
      rw [Option.getD_some]
      rcases List.lookup_eq_some_iff.mp hlookup with ⟨front, back, hranges, _⟩
      have hmem : (r, ranges) ∈ l.ranges := by simp [hranges]
      -- Ranges are kept for the registers that are followed and for families.
      rw [liveness_eq hl] at hmem
      simp only [livenessOf, entries_ledgerOf, tracks, List.mem_append, List.mem_map] at hmem
      rcases hmem with ⟨t, ⟨q, _, rfl⟩, heq⟩ | ⟨key, _, heq⟩
      · rw [← (Prod.mk.inj heq).2]
        exact wellPlaced_vregRanges f _ q
      · rw [← (Prod.mk.inj heq).2]
        exact wellPlaced_physicalRanges f _ key

end Function

namespace LiveRange

variable {ranges : List LiveRange} {b : Nat}

/-- The earliest start of a range in block `b`. -/
noncomputable def earliest (ranges : List LiveRange) (b : Nat) : Nat :=
  sInf {a | ∃ range ∈ ranges, range.block = b ∧ range.start = a}

/-- The latest end of a range in block `b`. -/
noncomputable def latest (ranges : List LiveRange) (b : Nat) : Nat :=
  sSup {e | ∃ range ∈ ranges, range.block = b ∧ range.stop = e}

/-- The ranges of a block, seen through one of their fields. -/
theorem mem_map_filter_block {field : LiveRange → Nat} {x : Nat} :
    x ∈ (ranges.filter fun range => decide (range.block = b)).map field ↔
      ∃ range ∈ ranges, range.block = b ∧ field range = x := by
  simp only [List.mem_map, List.mem_filter, decide_eq_true_eq, and_assoc]

theorem min?_starts (hb : b ∈ ranges.map LiveRange.block) :
    ((ranges.filter fun range => decide (range.block = b)).map LiveRange.start).min? =
      some (earliest ranges b) := by
  rcases List.mem_map.mp hb with ⟨range, hrange, hblock⟩
  have hsome : {a | ∃ range ∈ ranges, range.block = b ∧ range.start = a}.Nonempty :=
    ⟨range.start, range, hrange, hblock, rfl⟩
  rw [List.min?_eq_some_iff]
  refine ⟨mem_map_filter_block.mpr (Nat.sInf_mem hsome), fun a ha => ?_⟩
  exact Nat.sInf_le (mem_map_filter_block.mp ha)

theorem max?_stops (hb : b ∈ ranges.map LiveRange.block) :
    ((ranges.filter fun range => decide (range.block = b)).map LiveRange.stop).max? =
      some (latest ranges b) := by
  rcases List.mem_map.mp hb with ⟨range, hrange, hblock⟩
  -- A list has a greatest element, and that is the supremum of its elements.
  cases hmax : ((ranges.filter fun range => decide (range.block = b)).map LiveRange.stop).max? with
  | none =>
      rw [List.max?_eq_none_iff] at hmax
      have hstop := mem_map_filter_block.mpr ⟨range, hrange, hblock, (rfl : range.stop = _)⟩
      rw [hmax] at hstop
      exact absurd hstop (by simp)
  | some e =>
      rw [List.max?_eq_some_iff] at hmax
      have hgreatest : IsGreatest {e | ∃ range ∈ ranges, range.block = b ∧ range.stop = e} e :=
        ⟨mem_map_filter_block.mp hmax.1, fun x hx => hmax.2 x (mem_map_filter_block.mpr hx)⟩
      rw [latest, hgreatest.csSup_eq]

/-- Where ranges start no later than they end, so does what they cover of a block. -/
theorem earliest_le_latest (h : ∀ range ∈ ranges, range.start ≤ range.stop)
    (hb : b ∈ ranges.map LiveRange.block) : earliest ranges b ≤ latest ranges b := by
  rcases List.mem_map.mp hb with ⟨range, hrange, hblock⟩
  have hmem : range ∈ ranges.filter fun range => decide (range.block = b) :=
    List.mem_filter.mpr ⟨hrange, by simpa using hblock⟩
  have hstart := (List.min?_eq_some_iff.mp (min?_starts hb)).2 _ (List.mem_map_of_mem hmem)
  have hstop := (List.max?_eq_some_iff.mp (max?_stops hb)).2 _ (List.mem_map_of_mem hmem)
  have hordered := h range hrange
  omega

end LiveRange

theorem nodup_eraseDups (l : List Nat) : l.eraseDups.Nodup := by
  -- Each step keeps the first element and drops its repeats, which shortens the list.
  induction hn : l.length using Nat.strongRecOn generalizing l with
  | _ n ih =>
      cases l with
      | nil => simp
      | cons a rest =>
          rw [List.eraseDups_cons, List.nodup_cons]
          have hshort : (rest.filter fun b => !b == a).length < n := by
            have := List.length_filter_le (fun b => !b == a) rest
            rw [List.length_cons] at hn
            omega
          exact ⟨by simp, ih _ hshort _ rfl⟩

/-- What is counted of each block is the distance from the earliest start to the latest
    end, both included. -/
theorem extent_eq_sum {ranges : List LiveRange} (h : ∀ range ∈ ranges, range.start ≤ range.stop) :
    extent ranges = ∑ b ∈ (ranges.map LiveRange.block).toFinset,
      (LiveRange.latest ranges b - LiveRange.earliest ranges b + 1) := by
  have hblocks : (ranges.map LiveRange.block).toFinset =
      (ranges.map LiveRange.block).eraseDups.toFinset := by
    ext b
    simp only [List.mem_toFinset, List.mem_eraseDups]
  rw [hblocks, List.sum_toFinset _ (nodup_eraseDups _), extent, ← List.sum_eq_foldr]
  refine congrArg List.sum (List.map_congr_left fun b hb => ?_)
  rw [List.mem_eraseDups] at hb
  have hordered := LiveRange.earliest_le_latest h hb
  simp only [extentIn]
  rw [LiveRange.min?_starts hb, LiveRange.max?_stops hb, Option.getD_some, Option.getD_some]
  omega

/-- A depth-first walk without a bound. After `path` it enters the given blocks one after
    the other, and goes on from each of them that is not on the path. -/
inductive Explores (succ : Nat → List Nat) : List Nat → List Nat → List Arrival → Prop where
  | done {path : List Nat} : Explores succ path [] []
  | back {path rest : List Nat} {b : Nat} {listed : List Arrival} (meets : b ∈ path)
      (others : Explores succ path rest listed) :
      Explores succ path (b :: rest) (⟨path, b⟩ :: listed)
  | on {path rest : List Nat} {b : Nat} {inner listed : List Arrival} (new : b ∉ path)
      (inside : Explores succ (b :: path) (succ b) inner)
      (others : Explores succ path rest listed) :
      Explores succ path (b :: rest) (⟨path, b⟩ :: (inner ++ listed))

/-- With room for all blocks below `n`, the bound is not what ends the walk. -/
theorem explores_arrivalsFrom {succ : Nat → List Nat} {n : Nat}
    (hsucc : ∀ b c, c ∈ succ b → c < n) {room : Nat} {path nexts : List Nat}
    (hnodup : path.Nodup) (hpath : ∀ x ∈ path, x < n) (hroom : n ≤ room + path.length)
    (hnexts : ∀ b ∈ nexts, b < n) :
    Explores succ path nexts (nexts.flatMap (arrivalsFrom succ room path)) := by
  -- On the room that is left and, for each path, on the blocks that are entered after it.
  induction room generalizing path nexts with
  | zero =>
      induction nexts with
      | nil => exact .done
      | cons b rest ih =>
          have hb := hnexts b List.mem_cons_self
          have hmeets : b ∈ path := by
            by_contra hnew
            have hsub : (b :: path) ⊆ List.range n := by
              intro x hx
              rcases List.mem_cons.mp hx with rfl | hx
              · exact List.mem_range.mpr hb
              · exact List.mem_range.mpr (hpath x hx)
            have hle := (List.nodup_cons.mpr ⟨hnew, hnodup⟩).length_le_of_subset hsub
            rw [List.length_cons, List.length_range] at hle
            omega
          exact .back hmeets (ih fun c hc => hnexts c (List.mem_cons_of_mem b hc))
  | succ room ihroom =>
      induction nexts with
      | nil => exact .done
      | cons b rest ih =>
          have hb := hnexts b List.mem_cons_self
          have hothers := ih fun c hc => hnexts c (List.mem_cons_of_mem b hc)
          rw [List.flatMap_cons, arrivalsFrom]
          by_cases hmeets : b ∈ path
          · rw [if_pos (by simpa using hmeets)]
            exact .back hmeets hothers
          · rw [if_neg (by simpa using hmeets)]
            refine .on hmeets (ihroom (List.nodup_cons.mpr ⟨hmeets, hnodup⟩) ?_ ?_ ?_) hothers
            · intro x hx
              rcases List.mem_cons.mp hx with rfl | hx
              · exact hb
              · exact hpath x hx
            · rw [List.length_cons]
              omega
            · exact fun c hc => hsucc b c hc

/-- Applying `f` until nothing changes leads from one value to another. -/
inductive Repeats {α : Type} (f : α → α) : α → α → Prop where
  | fixed {a : α} (same : f a = a) : Repeats f a a
  | again {a z : α} (other : f a ≠ a) (rest : Repeats f (f a) z) : Repeats f a z

theorem repeats_settle {α : Type} [DecidableEq α] {f : α → α} {n : Nat} {a : α}
    (h : f (settle f n a) = settle f n a) : Repeats f a (settle f n a) := by
  induction n generalizing a with
  | zero => exact .fixed h
  | succ n ih =>
      unfold settle at h ⊢
      by_cases hsame : f a = a
      · rw [if_pos hsame]
        exact .fixed hsame
      · rw [if_neg hsame] at h ⊢
        exact .again hsame (ih h)

namespace Function

variable {f : Function M} {l : Liveness M}

/-- The loops that the arrivals close. -/
def loops (f : Function M) : List (List Nat) :=
  f.arrivals.filterMap Arrival.loop?

/-- One pass over all loops, for register `r`. -/
def closeLoops (f : Function M) (r : Register M) (s : Spread) : Spread :=
  f.loops.foldl (f.presence r).closeLoop s

/-- The analysis comes to an end without the bounds in its definitions. -/
structure Terminates (f : Function M) : Prop where
  walk : 0 < f.size → Explores f.next [] [0] f.arrivals
  passes : ∀ r, Repeats (f.closeLoops r) (f.arrivals.foldl (f.presence r).arrive ⟨[], []⟩)
    (f.spreadOf r)

theorem arrivals_of_size_eq_zero (hf : f.size = 0) : f.arrivals = [] := by
  simp only [arrivals, size_flow]
  exact if_pos hf

theorem terminates (f : Function M) : f.Terminates where
  walk := by
    intro hf
    have harr : f.arrivals = [0].flatMap (arrivalsFrom f.next f.size []) := by
      rw [arrivals_eq hf, List.flatMap_singleton]
    rw [harr]
    refine explores_arrivalsFrom (fun b c hc => lt_size_of_mem_next hc) List.nodup_nil ?_ ?_ ?_
    · simp
    · simp
    · intro b hb
      rw [List.mem_singleton.mp hb]
      exact hf
  passes := by
    intro r
    refine repeats_settle ?_
    by_cases hf : 0 < f.size
    · have harrivals : ∀ path b, (⟨path, b⟩ : Arrival) ∈ f.arrivals ↔
          Walk f.next path b ∧ path.Nodup := fun path b => mem_arrivals_iff hf
      refine Presence.spread_fixed harrivals fun path b hw => ?_
      exact ⟨walk_lt_size hf hw, walk_path_lt_size hf hw⟩
    · -- A function without blocks has no loops to pass over.
      have hnil := arrivals_of_size_eq_zero (Nat.eq_zero_of_not_pos hf)
      unfold closeLoops loops
      rw [hnil]
      rfl

/-- The last step of a walk goes to a block that exists. -/
theorem size_pos_of_walk {path : List Nat} {b : Nat} (hwalk : Walk f.next path b)
    (hne : path ≠ []) : 0 < f.size := by
  cases hwalk with
  | start => exact absurd rfl hne
  | step _ edge => exact Nat.lt_of_le_of_lt (Nat.zero_le _) (lt_size_of_mem_next edge)

/-- The loops are the ends of the simple paths that come back to one of their blocks. -/
theorem mem_loops_iff {body : List Nat} :
    body ∈ f.loops ↔ ∃ round rest b, body = round ++ [b] ∧
      Walk f.next (round ++ b :: rest) b ∧ (round ++ b :: rest).Nodup := by
  unfold loops
  rw [List.mem_filterMap]
  constructor
  · rintro ⟨a, ha, hloop⟩
    have hf : 0 < f.size := by
      by_contra hf
      rw [arrivals_of_size_eq_zero (Nat.eq_zero_of_not_pos hf)] at ha
      exact absurd ha (by simp)
    have hwalk := (mem_arrivals_iff hf).mp ha
    rcases Presence.exists_of_loop hloop with ⟨round, rest, hpath, _, hbody⟩
    rw [hpath] at hwalk
    exact ⟨round, rest, a.block, hbody, hwalk⟩
  · rintro ⟨round, rest, b, rfl, hwalk, hnodup⟩
    have hf : 0 < f.size := size_pos_of_walk hwalk (by simp)
    have hnot : b ∉ round := fun hb => (List.nodup_append.mp hnodup).2.2 b hb b (by simp) rfl
    exact ⟨⟨round ++ b :: rest, b⟩, (mem_arrivals_iff hf).mpr ⟨hwalk, hnodup⟩,
      Presence.loop_of_append hnot⟩

/-- A register that is live into a block of a loop and written in none of them is live
    through all of them. -/
theorem mem_through_of_loop (hl : f.liveness = .ok l) {body : List Nat} (hbody : body ∈ f.loops)
    (hlive : ∃ b ∈ body, r ∈ l.liveIn[b]?.getD []) (hclean : ∀ b ∈ body, ¬ f.Defines b r) :
    r ∈ f.tracked ∧ ∀ b ∈ body, b < f.size ∧ b ∈ (f.spreadOf r).through := by
  rcases mem_loops_iff.mp hbody with ⟨round, rest, b, rfl, hwalk, hnodup⟩
  have hf : 0 < f.size := size_pos_of_walk hwalk (by simp)
  have hlt : ∀ c ∈ round ++ [b], c < f.size := by
    intro c hc
    refine walk_path_lt_size hf hwalk c ?_
    rcases List.mem_append.mp hc with hc | hc
    · simp [hc]
    · simp [List.mem_singleton.mp hc]
  rcases hlive with ⟨c, hc, hin⟩
  rw [mem_liveIn_tracked hl (hlt c hc)] at hin
  refine ⟨hin.1, fun d hd => ⟨hlt d hd, ?_⟩⟩
  have hclosed := (Trackable.spread_spec (f := f) (r := r) hf).2
  refine hclosed.loops round rest b hwalk hnodup (fun d hd hw => ?_) ⟨c, hc, hin.2⟩ d hd
  exact hclean d hd (mem_written_iff.mp hw)

/-- A register that is live through a block has the whole block as a range. -/
theorem mem_rangesOf_of_through (hl : f.liveness = .ok l) (hr : r ∈ f.tracked) {b : Nat}
    {block : Block M} (hb : f.blocks[b]? = some block) (hthrough : b ∈ (f.spreadOf r).through) :
    ⟨b, 0, block.lastIndex⟩ ∈ l.rangesOf r := by
  rw [rangesOf_tracked hl hr]
  unfold vregRanges
  refine List.mem_flatMap.mpr ⟨((block.scan, block.lastIndex), b), ?_, ?_⟩
  · exact List.mem_zipIdx_iff_getElem?.mpr (getElem?_ends.mpr ⟨block, hb, rfl, rfl⟩)
  · refine mem_rangesIn.mpr ⟨⟨0, block.lastIndex⟩, ?_, rfl⟩
    unfold spreadSpans
    rw [if_pos (by simpa using hthrough)]
    exact List.mem_singleton_self _

/-- What holds of the ranges in the result of an analysis. -/
structure WellRanged (f : Function M) (l : Liveness M) : Prop where
  placed : ∀ r, f.WellPlaced (l.rangesOf r)
  distinct : ∀ r, (l.rangesOf r).Nodup
  /-- In a block that a register has ranges in, the earliest start is not after the latest end. -/
  ordered : ∀ r, ∀ b ∈ (l.rangesOf r).map LiveRange.block,
    LiveRange.earliest (l.rangesOf r) b ≤ LiveRange.latest (l.rangesOf r) b
  /-- What the cost of spilling a register counts of each block. -/
  counted : ∀ r, extent (l.rangesOf r) = ∑ b ∈ ((l.rangesOf r).map LiveRange.block).toFinset,
    (LiveRange.latest (l.rangesOf r) b - LiveRange.earliest (l.rangesOf r) b + 1)
  /-- A register that is live into a loop and not written in it is live through all of it. -/
  closed : ∀ body ∈ f.loops, ∀ r, (∃ b ∈ body, r ∈ l.liveIn[b]?.getD []) →
    (∀ b ∈ body, ¬ f.Defines b r) → ∀ b ∈ body, r ∈ l.liveIn[b]?.getD [] ∧
      ∃ block, f.blocks[b]? = some block ∧ ⟨b, 0, block.lastIndex⟩ ∈ l.rangesOf r

theorem wellRanged (hl : f.liveness = .ok l) : f.WellRanged l where
  placed := wellPlaced_rangesOf hl
  distinct r := (wellPlaced_rangesOf hl r).nodup
  ordered r _ hb := LiveRange.earliest_le_latest (wellPlaced_rangesOf hl r).start_le_stop hb
  counted r := extent_eq_sum (wellPlaced_rangesOf hl r).start_le_stop
  closed body hbody r hlive hclean b hb := by
    rcases mem_through_of_loop hl hbody hlive hclean with ⟨htracked, hthrough⟩
    rcases hthrough b hb with ⟨hlt, hb⟩
    refine ⟨(mem_liveIn_tracked hl hlt).mpr ⟨htracked, ?_⟩, f.blocks[b], ?_, ?_⟩
    · exact Presence.liveInto_eq_true.mpr (Or.inr hb)
    · exact List.getElem?_eq_getElem hlt
    · exact mem_rangesOf_of_through hl htracked (List.getElem?_eq_getElem hlt) hb

/-- The analysis of any function comes to an end, with the loops of its graph recorded. If it
    has a result, the ranges are well formed and closed around the loops. -/
theorem liveness_wellRanged (f : Function M) :
    f.Terminates ∧
      (∀ body, body ∈ f.loops ↔ ∃ round rest b, body = round ++ [b] ∧
        Walk f.next (round ++ b :: rest) b ∧ (round ++ b :: rest).Nodup) ∧
      ∀ l, f.liveness = .ok l → f.WellRanged l :=
  ⟨f.terminates, fun _ => mem_loops_iff, fun _ hl => wellRanged hl⟩

/-- A loop of two blocks, of which one reads a value from before the loop. Behind it stand an
    empty block and one that control does not reach. -/
def readInLoop : Function flat :=
  let r : VReg flat := ⟨0, FlatClass.mk 4⟩
  ⟨"f", [
    ⟨[], [Sample.assign .copy r [.imm 5], Sample.perform .jmp [.block 1]]⟩,
    ⟨[], [Sample.perform .jmp [.block 2]]⟩,
    ⟨[], [Sample.perform .jnz [.ofVReg r, .block 1], Sample.perform .jmp [.block 3]]⟩,
    ⟨[], []⟩,
    ⟨[], [Sample.perform .ret [.ofVReg r]]⟩]⟩

/-- The value survives the jump behind its read, which control passes on the way back. -/
theorem readInLoop_closed : ∃ l, readInLoop.liveness = .ok l ∧ [2, 1] ∈ readInLoop.loops ∧
    ∀ b ∈ [2, 1], .virtual ⟨0, FlatClass.mk 4⟩ ∈ l.liveIn[b]?.getD [] ∧
      ∃ block, readInLoop.blocks[b]? = some block ∧
        ⟨b, 0, block.lastIndex⟩ ∈ l.rangesOf (.virtual ⟨0, FlatClass.mk 4⟩) := by
  refine ⟨_, rfl, by decide, ?_⟩
  exact ((liveness_wellRanged readInLoop).2.2 _ rfl).closed [2, 1] (by decide) _
    (by decide) (by decide)

end Function

end RegisterColoring
