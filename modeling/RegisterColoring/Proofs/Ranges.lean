import RegisterColoring.Proofs.Defined
import RegisterColoring.Proofs.KeyedRanges
import RegisterColoring.Proofs.Scanned

/-!
# Live Ranges and Dataflow

What the analysis answers for one register, against liveness as paths define it.
A range starts where the register is written or with the block it is live into, and
ends with the last read of the value. It reaches the end of the block if the
value is neither overwritten nor dead there.

The analysis puts this together from two sides: the spans of the scans, which know
single blocks, and the spread, which knows the graph. The statement here is for one
settled register in a function without inputs. Two conditions on its
instructions keep spans apart: an instruction that writes the register lists it
once and does not read it.

## Main definitions

* `Function.LiveInto`: Some path reaches a read before a write.
* `Block.Stops`: Where a range ends.
* `Function.HasRange`: The ranges that a register should have.
* `Function.Trackable`: What the analysis needs to know about a register.
* `Function.Tractable`: What it needs to know about a function.

## Theorems

* `Function.live_iff`: The spread sees the liveness of the code.
* `mem_spans_iff`, `Ascends.mem_stretch_iff`: The spans of a block, and the last of them extended.
* `Function.Trackable.mem_spreadSpans_iff`: The ranges of a block are those it should have.
* `Function.Trackable.mem_vregRanges`, `Function.Trackable.liveInto_iff`: The answers.
-/

namespace RegisterColoring

variable {M : Machine}

/-- The block reads register `r` before it writes it. -/
def Block.Exposes (b : Block M) (r : Register M) : Prop :=
  (∀ v ∈ b.inputs, r ≠ .virtual v) ∧ Needs r b.code

namespace Function

/-- Some path from the start of the block reaches a read of `r` before a write of it. -/
inductive LiveInto (f : Function M) (r : Register M) : Nat → Prop where
  | here {b : Nat} {block : Block M} (hb : f.blocks[b]? = some block) (h : block.Exposes r) :
      LiveInto f r b
  | there {b c : Nat} (hb : ¬ f.Defines b r) (hc : c ∈ f.next b) (h : LiveInto f r c) :
      LiveInto f r b

/-- The register is live at the end of the block. -/
def LiveOutOf (f : Function M) (r : Register M) (b : Nat) : Prop :=
  ∃ c ∈ f.next b, f.LiveInto r c

end Function

namespace Block

/-- Some instruction from `k` on writes `r`. -/
def WritesFrom (b : Block M) (r : Register M) (k : Nat) : Prop :=
  ∃ j i, k ≤ j ∧ b.code[j]? = some i ∧ r ∈ i.defs

/-- Instruction `j` reads the value that `r` has before instruction `k`. -/
def ReadsFrom (b : Block M) (r : Register M) (k j : Nat) : Prop :=
  k ≤ j ∧ (∃ i, b.code[j]? = some i ∧ r ∈ i.reads) ∧
    ∀ m i, k ≤ m → m < j → b.code[m]? = some i → r ∉ i.defs

/-- Where a range of `r` ends that starts at `start`, if the value is there before
    instruction `k`, and `out` says whether it is needed after the block. -/
inductive Stops (b : Block M) (r : Register M) (out : Prop) (k start : Nat) : Nat → Prop where
  /-- Nothing overwrites the value, and it is needed after the block. -/
  | last (hout : out) (hkept : ¬ b.WritesFrom r k) : Stops b r out k start b.lastIndex
  /-- The last read of the value. -/
  | read {j : Nat} (hlocal : out → b.WritesFrom r k) (hj : b.ReadsFrom r k j)
      (hlast : ∀ m, b.ReadsFrom r k m → m ≤ j) : Stops b r out k start j
  /-- Nothing reads the value. -/
  | unread (hlocal : out → b.WritesFrom r k) (hnone : ∀ j, ¬ b.ReadsFrom r k j) :
      Stops b r out k start start

end Block

namespace Function

/-- The ranges that register `r` should have in block `b`: from the start, if it is
    live into the block, and from every write. -/
def HasRange (f : Function M) (r : Register M) (b start stop : Nat) : Prop :=
  ∃ block, f.blocks[b]? = some block ∧
    ((start = 0 ∧ f.LiveInto r b ∧ block.Stops r (f.LiveOutOf r b) 0 0 stop) ∨
      ∃ i, block.code[start]? = some i ∧ r ∈ i.defs ∧
        block.Stops r (f.LiveOutOf r b) (start + 1) start stop)

/-- Where a register occurs in a function. -/
def presence (f : Function M) (r : Register M) : Presence :=
  RegisterColoring.presence (f.blocks.map Block.scan) r

end Function

/-- The reads of a value are those that see it in the code from there on. -/
theorem Block.readsFrom_iff {b : Block M} {r : Register M} {k j : Nat} :
    b.ReadsFrom r k j ↔ k ≤ j ∧ Sees r (b.code.drop k) (j - k) := by
  unfold Block.ReadsFrom Sees
  constructor
  · rintro ⟨hkj, hread, hclean⟩
    refine ⟨hkj, ?_, fun m hm i hi => ?_⟩
    · rw [List.getElem?_drop, show k + (j - k) = j by omega]
      exact hread
    · rw [List.getElem?_drop] at hi
      exact hclean (k + m) i (by omega) (by omega) hi
  · rintro ⟨hkj, hread, hclean⟩
    refine ⟨hkj, ?_, fun m i hkm hmj hi => ?_⟩
    · rw [List.getElem?_drop, show k + (j - k) = j by omega] at hread
      exact hread
    · refine hclean (m - k) (by omega) i ?_
      rw [List.getElem?_drop, show k + (m - k) = m by omega]
      exact hi

theorem Block.readsFrom_add_iff {b : Block M} {r : Register M} {k d : Nat} :
    b.ReadsFrom r k (k + d) ↔ Sees r (b.code.drop k) d := by
  rw [Block.readsFrom_iff, Nat.add_sub_cancel_left]
  exact and_iff_right (Nat.le_add_right k d)

/-- Unless the value is kept to the end of the block, its range ends with its last read. -/
theorem Block.stops_iff_of_local {b : Block M} {r : Register M} {out : Prop} {k start stop : Nat}
    (hlocal : out → b.WritesFrom r k) :
    b.Stops r out k start stop ↔ stop = (lastSeen r k (b.code.drop k)).getD start := by
  constructor
  · intro h
    cases h with
    | last hout hkept => exact absurd (hlocal hout) hkept
    | read _ hj hlast =>
        have hsees := Block.readsFrom_iff.mp hj
        rcases exists_lastSeen_iff.mpr ⟨_, hsees.2⟩ with ⟨e, he⟩
        rcases lastSeen_eq_some he with ⟨d, rfl, hd, hmax⟩
        -- Both are the last read, counted from the block and from instruction `k`.
        have hle := hmax _ hsees.2
        have hge := hlast (k + d) (Block.readsFrom_add_iff.mpr hd)
        rw [he, Option.getD_some]
        omega
    | unread _ hnone =>
        have hno : lastSeen r k (b.code.drop k) = none :=
          lastSeen_eq_none_iff.mpr fun ⟨d, hd⟩ => hnone (k + d) (Block.readsFrom_add_iff.mpr hd)
        rw [hno, Option.getD_none]
  · intro h
    cases he : lastSeen r k (b.code.drop k) with
    | none =>
        rw [he, Option.getD_none] at h
        rw [h]
        refine .unread hlocal fun j hj => ?_
        exact lastSeen_eq_none_iff.mp he ⟨_, (Block.readsFrom_iff.mp hj).2⟩
    | some e =>
        rw [he, Option.getD_some] at h
        rcases lastSeen_eq_some he with ⟨d, rfl, hd, hmax⟩
        rw [h]
        refine .read hlocal (Block.readsFrom_add_iff.mpr hd) fun m hm => ?_
        have hm' := Block.readsFrom_iff.mp hm
        have := hmax _ hm'.2
        omega

theorem Block.stops_iff_of_kept {b : Block M} {r : Register M} {out : Prop} {k start stop : Nat}
    (hout : out) (hkept : ¬ b.WritesFrom r k) :
    b.Stops r out k start stop ↔ stop = b.lastIndex := by
  constructor
  · intro h
    cases h with
    | last _ _ => rfl
    | read hlocal _ _ => exact absurd (hlocal hout) hkept
    | unread hlocal _ => exact absurd (hlocal hout) hkept
  · rintro rfl
    exact .last hout hkept

/-- The spans of writes, by position. -/
theorem mem_writeSpans_iff {r : Register M} {index a e : Nat} {code : List (Instr M)} :
    ⟨a, e⟩ ∈ writeSpans r index code ↔ ∃ k i, a = index + k ∧ code[k]? = some i ∧ r ∈ i.defs ∧
      e = (lastSeen r (a + 1) (code.drop (k + 1))).getD a := by
  induction code generalizing index with
  | nil => simp [writeSpans]
  | cons i rest ih =>
      -- The spans of the rest, with indices from the whole code.
      have hrest : ⟨a, e⟩ ∈ writeSpans r (index + 1) rest ↔
          ∃ k i', a = index + (k + 1) ∧ (i :: rest)[k + 1]? = some i' ∧ r ∈ i'.defs ∧
            e = (lastSeen r (a + 1) ((i :: rest).drop (k + 1 + 1))).getD a := by
        rw [ih]
        simp only [List.getElem?_cons_succ, List.drop_succ_cons,
          show ∀ k, index + 1 + k = index + (k + 1) from fun k => by omega]
      rw [writeSpans]
      by_cases hd : r ∈ i.defs
      · rw [if_pos hd, List.mem_cons, hrest]
        constructor
        · rintro (heq | ⟨k, i', hk⟩)
          · rw [Span.mk.injEq] at heq
            refine ⟨0, i, by omega, rfl, hd, ?_⟩
            rw [heq.1, heq.2]
            rfl
          · exact ⟨k + 1, i', hk⟩
        · rintro ⟨k, i', ha, hi', hd', he⟩
          cases k with
          | zero =>
              refine Or.inl ?_
              rw [Span.mk.injEq, he]
              have ha' : a = index := by omega
              rw [ha']
              exact ⟨rfl, rfl⟩
          | succ k => exact Or.inr ⟨k, i', ha, hi', hd', he⟩
      · rw [if_neg hd, hrest]
        constructor
        · rintro ⟨k, i', hk⟩
          exact ⟨k + 1, i', hk⟩
        · rintro ⟨k, i', ha, hi', hd', he⟩
          cases k with
          | zero =>
              have hii : i = i' := by simpa using hi'
              exact absurd (hii ▸ hd') hd
          | succ k => exact ⟨k, i', ha, hi', hd', he⟩

/-- Spans with increasing starts. -/
def Ascends (spans : List Span) : Prop :=
  spans.Pairwise fun s t => s.start < t.start

theorem ascends_writeSpans (r : Register M) (index : Nat) (code : List (Instr M)) :
    Ascends (writeSpans r index code) := by
  induction code generalizing index with
  | nil => exact List.Pairwise.nil
  | cons i rest ih =>
      rw [writeSpans]
      split
      · refine List.pairwise_cons.mpr ⟨fun s hs => ?_, ih (index + 1)⟩
        obtain ⟨a, e⟩ := s
        rcases mem_writeSpans_iff.mp hs with ⟨k, _, ha, _⟩
        simp only
        omega
      · exact ih (index + 1)

/-- A list that is in order already is not changed by sorting. -/
theorem ascending_eq_self {α : Type} {lt : α → α → Bool} {l : List α}
    (h : l.Pairwise fun a b => lt a b = true) : ascending lt l = l := by
  induction l with
  | nil => rfl
  | cons a l ih =>
      have hsplit := List.pairwise_cons.mp h
      have hstep : ascending lt (a :: l) = insertAscending lt a (ascending lt l) := rfl
      rw [hstep, ih hsplit.2]
      cases l with
      | nil => rfl
      | cons b l =>
          rw [insertAscending, if_pos (hsplit.1 b (by simp))]

theorem Ascends.rangesIn {spans : List Span} (h : Ascends spans) (b : Nat) :
    rangesIn b spans = spans.map (Span.inBlock b) := by
  unfold RegisterColoring.rangesIn
  rw [ascending_eq_self]
  refine h.imp fun hlt => ?_
  simp [Span.before, hlt]

/-- In an ascending list it is the last span that is stretched. -/
theorem stretch_append (last : Nat) {spans : List Span} {s : Span} (h : Ascends (spans ++ [s])) :
    stretch last (spans ++ [s]) = spans ++ [{ s with stop := last }] := by
  induction spans with
  | nil => simp [stretch]
  | cons t spans ih =>
      have hsplit := List.pairwise_cons.mp h
      have hless : t.start < s.start := hsplit.1 s (by simp)
      rw [List.cons_append, stretch, if_neg, ih hsplit.2, List.cons_append]
      simp only [List.all_append, List.all_cons, List.all_nil, Bool.and_true, Bool.and_eq_true,
        decide_eq_true_eq]
      omega

theorem Ascends.stretch {spans : List Span} (h : Ascends spans) (last : Nat) :
    Ascends (stretch last spans) := by
  rcases List.eq_nil_or_concat spans with rfl | ⟨init, s, rfl⟩
  · exact h
  · rw [List.concat_eq_append] at h ⊢
    rw [stretch_append last h]
    rw [Ascends, List.pairwise_append] at h ⊢
    refine ⟨h.1, List.pairwise_singleton _ _, fun t ht u hu => ?_⟩
    rw [List.mem_singleton] at hu
    rw [hu]
    exact h.2.2 t ht s (by simp)

/-- Stretching moves the end of the latest span and keeps the others. -/
theorem Ascends.mem_stretch_iff {spans : List Span} (h : Ascends spans) {last a e : Nat} :
    ⟨a, e⟩ ∈ RegisterColoring.stretch last spans ↔
      (⟨a, e⟩ ∈ spans ∧ ∃ t ∈ spans, a < t.start) ∨
        (e = last ∧ (∃ t ∈ spans, t.start = a) ∧ ∀ t ∈ spans, t.start ≤ a) := by
  rcases List.eq_nil_or_concat spans with rfl | ⟨init, s, rfl⟩
  · simp [RegisterColoring.stretch]
  · rw [List.concat_eq_append] at h ⊢
    rw [stretch_append last h]
    rw [Ascends, List.pairwise_append] at h
    have hbelow : ∀ t ∈ init, t.start < s.start := fun t ht => h.2.2 t ht s (by simp)
    constructor
    · intro hmem
      rcases List.mem_append.mp hmem with hmem | hmem
      · exact Or.inl ⟨by simp [hmem], s, by simp, hbelow _ hmem⟩
      · rw [List.mem_singleton, Span.mk.injEq] at hmem
        refine Or.inr ⟨hmem.2, ⟨s, by simp, hmem.1.symm⟩, fun t ht => ?_⟩
        rcases List.mem_append.mp ht with ht | ht
        · have := hbelow t ht
          omega
        · rw [List.mem_singleton.mp ht]
          omega
    · rintro (⟨hmem, t, ht, hlt⟩ | ⟨rfl, ⟨t, ht, rfl⟩, hmax⟩)
      · rcases List.mem_append.mp hmem with hmem | hmem
        · simp [hmem]
        · -- The last span has nothing after it.
          rw [List.mem_singleton] at hmem
          rcases List.mem_append.mp ht with ht | ht
          · have := hbelow t ht
            rw [← hmem] at this
            simp only at this
            omega
          · rw [List.mem_singleton.mp ht, ← hmem] at hlt
            simp at hlt
      · rcases List.mem_append.mp ht with ht | ht
        · have := hbelow t ht
          have := hmax s (by simp)
          omega
        · rw [List.mem_singleton.mp ht]
          simp

section Block

variable {block : Block M} {r : Register M}

theorem scan_eq (h : block.inputs = []) : block.scan = scanCode 0 block.code := by
  unfold Block.scan
  rw [h]
  rfl

theorem exposes_scan_iff (hr : r.Solitary) (h : block.inputs = []) :
    block.scan.exposes r = true ↔ block.Exposes r := by
  unfold Scan.exposes Block.Exposes
  rw [scan_eq h, lookup_scanCode hr, h, Option.isSome_iff_exists, exists_lastSeen_iff]
  simp

theorem defines_scan_iff (h : block.inputs = []) :
    block.scan.defines r = true ↔ block.Defines r := by
  unfold Scan.defines Block.Defines
  rw [Scan.isSome_lookup_iff, scan_eq h, mem_writes_scanCode, h]
  simp

/-- The spans of a block: the value it starts with, and those that it writes. -/
theorem mem_spans_iff (hr : r.Solitary) (h : block.inputs = [])
    (honce : ∀ i ∈ block.code, i.defs.count r ≤ 1) {a e : Nat} :
    ⟨a, e⟩ ∈ block.scan.spans r ↔ (a = 0 ∧ lastSeen r 0 block.code = some e) ∨
      ∃ i, block.code[a]? = some i ∧ r ∈ i.defs ∧
        e = (lastSeen r (a + 1) (block.code.drop (a + 1))).getD a := by
  -- The value from before the block comes first, then one span for each write.
  have hspans : block.scan.spans r =
      ((lastSeen r 0 block.code).map (Span.mk 0)).toList ++ writeSpans r 0 block.code := by
    have hwrites := writesOf_scanCode hr 0 honce
    unfold Scan.writesOf at hwrites
    unfold Scan.spans
    rw [scan_eq h, lookup_scanCode hr, hwrites]
  rw [hspans, List.mem_append, mem_writeSpans_iff]
  refine or_congr ?_ ?_
  · cases lastSeen r 0 block.code with
    | none => simp
    | some e' =>
        rw [Option.map_some, Option.mem_toList, Option.some.injEq, Option.some.injEq,
          Span.mk.injEq, eq_comm (a := 0)]
  · constructor
    · rintro ⟨k, i, ha, hrest⟩
      have hk : k = a := by omega
      exact ⟨i, hk ▸ hrest⟩
    · rintro ⟨i, hrest⟩
      exact ⟨a, i, by omega, hrest⟩

/-- Code that reads a register before it writes it does not write it at once. -/
theorem not_written_first {code : List (Instr M)}
    (hapart : ∀ i ∈ code, r ∈ i.defs → r ∉ i.reads) {e : Nat}
    (he : lastSeen r 0 code = some e) {i : Instr M} (hi : code[0]? = some i) : r ∉ i.defs := by
  intro hd
  rcases lastSeen_eq_some he with ⟨j, _, hsees, _⟩
  cases j with
  | succ j => exact hsees.2 0 (by omega) i hi hd
  | zero =>
      -- The first instruction would have to read what it overwrites.
      rcases hsees.1 with ⟨i', hi', hread⟩
      rw [hi, Option.some.injEq] at hi'
      exact hapart i (List.mem_of_getElem? hi) hd (hi' ▸ hread)

theorem ascends_spans (hr : r.Solitary) (h : block.inputs = [])
    (honce : ∀ i ∈ block.code, i.defs.count r ≤ 1)
    (hapart : ∀ i ∈ block.code, r ∈ i.defs → r ∉ i.reads) : Ascends (block.scan.spans r) := by
  have hwrites := writesOf_scanCode hr 0 honce
  unfold Scan.writesOf at hwrites
  unfold Scan.spans
  rw [scan_eq h, lookup_scanCode hr, hwrites]
  cases hlast : lastSeen r 0 block.code with
  | none => exact ascends_writeSpans r 0 block.code
  | some e =>
      refine List.pairwise_cons.mpr ⟨fun s hs => ?_, ascends_writeSpans r 0 block.code⟩
      obtain ⟨a, e'⟩ := s
      rcases mem_writeSpans_iff.mp hs with ⟨k, i, ha, hi, hd, _⟩
      -- The span of the first value starts at 0, so no write may start there.
      cases k with
      | succ k =>
          simp only
          omega
      | zero => exact absurd hd (not_written_first hapart hlast hi)

end Block

namespace Function

variable {f : Function M} {r : Register M}

theorem mem_blocksWhere {scans : List (Scan M)} {p : Scan M → Bool} {b : Nat} :
    b ∈ blocksWhere scans p ↔ ∃ s, scans[b]? = some s ∧ p s = true := by
  unfold blocksWhere
  rw [List.mem_filterMap]
  constructor
  · rintro ⟨⟨s, c⟩, hmem, hc⟩
    by_cases hp : p s = true
    · simp only [if_pos hp, Option.some.injEq] at hc
      exact ⟨s, hc ▸ List.mem_zipIdx_iff_getElem?.mp hmem, hp⟩
    · simp only [if_neg hp] at hc
      exact absurd hc (by simp)
  · rintro ⟨s, hs, hp⟩
    exact ⟨(s, b), List.mem_zipIdx_iff_getElem?.mpr hs, by simp [hp]⟩

theorem mem_blocksWhere_scan {p : Scan M → Bool} {b : Nat} :
    b ∈ blocksWhere (f.blocks.map Block.scan) p ↔
      ∃ block, f.blocks[b]? = some block ∧ p block.scan = true := by
  rw [mem_blocksWhere]
  constructor
  · rintro ⟨s, hs, hp⟩
    rw [List.getElem?_map, Option.map_eq_some_iff] at hs
    rcases hs with ⟨block, hblock, rfl⟩
    exact ⟨block, hblock, hp⟩
  · rintro ⟨block, hblock, hp⟩
    exact ⟨block.scan, by rw [List.getElem?_map, hblock]; rfl, hp⟩

/-- The writes that scans record are those of the blocks, inputs included. -/
theorem mem_written_iff {b : Nat} : b ∈ (f.presence r).written ↔ f.Defines b r := by
  have hwhere : b ∈ (f.presence r).written ↔
      ∃ block, f.blocks[b]? = some block ∧ block.scan.defines r = true :=
    mem_blocksWhere_scan (p := fun s => s.defines r)
  rw [hwhere]
  refine exists_congr fun block => and_congr_right fun _ => ?_
  unfold Scan.defines Block.scan Block.Defines
  rw [Scan.isSome_lookup_iff, Scan.mem_foldl_write, mem_writes_scanCode, List.mem_map]
  refine or_congr_left (exists_congr fun v => and_congr_right fun _ => ?_)
  exact eq_comm

section NoInputs

variable (hin : ∀ b ∈ f.blocks, b.inputs = [])

include hin

theorem mem_exposed_iff (hr : r.Solitary) {b : Nat} :
    b ∈ (f.presence r).exposed ↔ ∃ block, f.blocks[b]? = some block ∧ block.Exposes r := by
  have hwhere : b ∈ (f.presence r).exposed ↔
      ∃ block, f.blocks[b]? = some block ∧ block.scan.exposes r = true :=
    mem_blocksWhere_scan (p := fun s => s.exposes r)
  rw [hwhere]
  refine exists_congr fun block => and_congr_right fun hb => ?_
  exact exposes_scan_iff hr (hin block (List.mem_of_getElem? hb))

/-- What the spread calls live is live along the paths of the code. -/
theorem live_iff (hr : r.Solitary) {b : Nat} :
    (f.presence r).Live f.next b ↔ f.LiveInto r b := by
  constructor
  · intro h
    induction h with
    | here he =>
        rcases (mem_exposed_iff hin hr).mp he with ⟨block, hb, hexposes⟩
        exact .here hb hexposes
    | there hb hc _ ih => exact .there (fun hdef => hb (mem_written_iff.mpr hdef)) hc ih
  · intro h
    induction h with
    | here hb hexposes => exact .here ((mem_exposed_iff hin hr).mpr ⟨_, hb, hexposes⟩)
    | there hb hc _ ih => exact .there (fun hw => hb (mem_written_iff.mp hw)) hc ih

theorem liveOut_iff (hr : r.Solitary) {b : Nat} :
    (f.presence r).LiveOut f.next b ↔ f.LiveOutOf r b :=
  exists_congr fun _ => and_congr_right fun _ => live_iff hin hr

theorem through_iff (hr : r.Solitary) {b : Nat} :
    (f.presence r).Through f.next b ↔ ¬ f.Defines b r ∧ f.LiveOutOf r b :=
  and_congr (not_congr mem_written_iff) (liveOut_iff hin hr)

end NoInputs

/-- What the analysis of a register relies on. -/
structure Trackable (f : Function M) (r : Register M) : Prop where
  inputs : ∀ b ∈ f.blocks, b.inputs = []
  reached : ∀ b < f.size, ∃ path, Walk f.next path b
  solitary : r.Solitary
  /-- An instruction lists the register at most once among its results. -/
  once : ∀ b ∈ f.blocks, ∀ i ∈ b.code, i.defs.count r ≤ 1
  /-- No instruction overwrites the register that it reads. -/
  apart : ∀ b ∈ f.blocks, ∀ i ∈ b.code, r ∈ i.defs → r ∉ i.reads
  settled : (f.presence r).Settled f.next

/-- How far register `r` is live. -/
def spreadOf (f : Function M) (r : Register M) : Spread :=
  (f.presence r).spread f.size f.arrivals (f.arrivals.filterMap Arrival.loop?)

namespace Trackable

variable (h : f.Trackable r)

include h

omit h in
theorem spread_spec (hf : 0 < f.size) :
    (f.presence r).Sound f.next (f.spreadOf r) ∧ (f.presence r).Closed f.next (f.spreadOf r) := by
  have harrivals : ∀ path b, (⟨path, b⟩ : Arrival) ∈ f.arrivals ↔
      Walk f.next path b ∧ path.Nodup := fun path b => mem_arrivals_iff hf
  refine ⟨Presence.spread_sound harrivals, Presence.spread_closed harrivals fun path b hw => ?_⟩
  exact ⟨walk_lt_size hf hw, walk_path_lt_size hf hw⟩

theorem liveInto_iff {b : Nat} (hb : b < f.size) :
    (f.presence r).liveInto (f.spreadOf r) b = true ↔ f.LiveInto r b := by
  have hspec := spread_spec (f := f) (r := r) (by omega)
  rw [Presence.liveInto_iff hspec.1 hspec.2 h.settled (h.reached b hb),
    live_iff h.inputs h.solitary]

theorem mem_through_iff {b : Nat} (hb : b < f.size) :
    b ∈ (f.spreadOf r).through ↔ ¬ f.Defines b r ∧ f.LiveOutOf r b := by
  have hspec := spread_spec (f := f) (r := r) (by omega)
  rw [Presence.mem_through_iff hspec.1 hspec.2 h.settled (h.reached b hb),
    through_iff h.inputs h.solitary]

theorem mem_tails_iff {b : Nat} (hb : b < f.size) :
    b ∈ (f.spreadOf r).tails ↔ f.Defines b r ∧ f.LiveOutOf r b := by
  have hspec := spread_spec (f := f) (r := r) (by omega)
  rw [Presence.mem_tails_iff hspec.1 hspec.2 h.settled (h.reached b hb), mem_written_iff,
    liveOut_iff h.inputs h.solitary]

omit h in
/-- In a block that writes a register or that it is dead after, the register is live
    into the block only if the block reads it. -/
theorem exposes_of_liveInto {b : Nat} {block : Block M} (hb : f.blocks[b]? = some block)
    (hlocal : f.LiveOutOf r b → f.Defines b r) (hlive : f.LiveInto r b) : block.Exposes r := by
  cases hlive with
  | here hb' hexposes =>
      rw [hb, Option.some.injEq] at hb'
      exact hb' ▸ hexposes
  | there hdef hc hnext => exact absurd (hlocal ⟨_, hc, hnext⟩) hdef

theorem exposes_iff {b : Nat} {block : Block M} (hb : f.blocks[b]? = some block) :
    block.Exposes r ↔ ∃ e, lastSeen r 0 block.code = some e := by
  unfold Block.Exposes
  rw [h.inputs block (List.mem_of_getElem? hb), exists_lastSeen_iff]
  simp

theorem liveInto_iff_of_local {b : Nat} {block : Block M} (hb : f.blocks[b]? = some block)
    (hlocal : f.LiveOutOf r b → f.Defines b r) :
    f.LiveInto r b ↔ ∃ e, lastSeen r 0 block.code = some e := by
  rw [← h.exposes_iff hb]
  exact ⟨exposes_of_liveInto hb hlocal, .here hb⟩

theorem mem_spans {b : Nat} {block : Block M} (hb : f.blocks[b]? = some block) {a e : Nat} :
    ⟨a, e⟩ ∈ block.scan.spans r ↔ (a = 0 ∧ lastSeen r 0 block.code = some e) ∨
      ∃ i, block.code[a]? = some i ∧ r ∈ i.defs ∧
        e = (lastSeen r (a + 1) (block.code.drop (a + 1))).getD a :=
  have hmem := List.mem_of_getElem? hb
  mem_spans_iff h.solitary (h.inputs block hmem) (h.once block hmem)

theorem ascends {b : Nat} {block : Block M} (hb : f.blocks[b]? = some block) :
    Ascends (block.scan.spans r) :=
  have hmem := List.mem_of_getElem? hb
  ascends_spans h.solitary (h.inputs block hmem) (h.once block hmem) (h.apart block hmem)

/-- Later spans come from later writes. -/
theorem exists_later_span {b : Nat} {block : Block M} (hb : f.blocks[b]? = some block) {a : Nat} :
    (∃ t ∈ block.scan.spans r, a < t.start) ↔ block.WritesFrom r (a + 1) := by
  constructor
  · rintro ⟨⟨c, e⟩, ht, hlt⟩
    rcases (h.mem_spans hb).mp ht with ⟨rfl, _⟩ | ⟨i, hi, hd, _⟩
    · exact absurd hlt (Nat.not_lt_zero a)
    · exact ⟨c, i, hlt, hi, hd⟩
  · rintro ⟨j, i, hj, hi, hd⟩
    exact ⟨⟨j, _⟩, (h.mem_spans hb).mpr (Or.inr ⟨i, hi, hd, rfl⟩), hj⟩

theorem defines_iff {b : Nat} {block : Block M} (hb : f.blocks[b]? = some block) :
    f.Defines b r ↔ block.WritesFrom r 0 := by
  constructor
  · rintro ⟨block', hb', hdef⟩
    rw [hb, Option.some.injEq] at hb'
    subst hb'
    rcases hdef with ⟨v, hv, _⟩ | ⟨i, hi, hd⟩
    · rw [h.inputs block (List.mem_of_getElem? hb)] at hv
      exact absurd hv (by simp)
    · rcases List.getElem?_of_mem hi with ⟨j, hj⟩
      exact ⟨j, i, by omega, hj, hd⟩
  · rintro ⟨j, i, _, hi, hd⟩
    exact ⟨block, hb, Or.inr ⟨i, List.mem_of_getElem? hi, hd⟩⟩

/-- If a block writes a register but reads it first, the write comes later. -/
theorem writesFrom_one {b : Nat} {block : Block M} (hb : f.blocks[b]? = some block)
    (hdef : f.Defines b r) {e : Nat} (he : lastSeen r 0 block.code = some e) :
    block.WritesFrom r 1 := by
  rcases (h.defines_iff hb).mp hdef with ⟨j, i, _, hi, hd⟩
  cases j with
  | zero => exact absurd hd (not_written_first (h.apart block (List.mem_of_getElem? hb)) he hi)
  | succ j => exact ⟨j + 1, i, by omega, hi, hd⟩

/-- A block that a register is live through has one range, over all of it. -/
theorem hasRange_iff_of_through {b : Nat} {block : Block M} (hb : f.blocks[b]? = some block)
    (hdef : ¬ f.Defines b r) (hout : f.LiveOutOf r b) {a e : Nat} :
    f.HasRange r b a e ↔ a = 0 ∧ e = block.lastIndex := by
  have hkept : ¬ block.WritesFrom r 0 := fun hw => hdef ((h.defines_iff hb).mpr hw)
  constructor
  · rintro ⟨block', hb', hrange⟩
    rw [hb, Option.some.injEq] at hb'
    subst hb'
    rcases hrange with ⟨ha, _, hstop⟩ | ⟨i, hi, hd, _⟩
    · exact ⟨ha, (Block.stops_iff_of_kept hout hkept).mp hstop⟩
    · exact absurd ⟨a, i, by omega, hi, hd⟩ hkept
  · rintro ⟨rfl, rfl⟩
    rcases hout with ⟨c, hc, hlive⟩
    exact ⟨block, hb, Or.inl ⟨rfl, .there hdef hc hlive, .last ⟨c, hc, hlive⟩ hkept⟩⟩

/-- Elsewhere, the ranges are those of the block's own reads and writes. -/
theorem hasRange_iff_of_local {b : Nat} {block : Block M} (hb : f.blocks[b]? = some block)
    (hlocal : f.LiveOutOf r b → f.Defines b r) {a e : Nat} :
    f.HasRange r b a e ↔ (a = 0 ∧ lastSeen r 0 block.code = some e) ∨
      ∃ i, block.code[a]? = some i ∧ r ∈ i.defs ∧
        block.Stops r (f.LiveOutOf r b) (a + 1) a e := by
  have hlocal' : f.LiveOutOf r b → block.WritesFrom r 0 :=
    fun hout => (h.defines_iff hb).mp (hlocal hout)
  -- A register that does not pass through has an incoming range if it is read first.
  have hstart : f.LiveInto r b ∧ block.Stops r (f.LiveOutOf r b) 0 0 e ↔
      lastSeen r 0 block.code = some e := by
    rw [h.liveInto_iff_of_local hb hlocal, Block.stops_iff_of_local hlocal', List.drop_zero]
    constructor
    · rintro ⟨⟨e', he'⟩, heq⟩
      rw [he', Option.getD_some] at heq
      rw [he', heq]
    · intro he
      exact ⟨⟨e, he⟩, by rw [he, Option.getD_some]⟩
  constructor
  · rintro ⟨block', hb', hrange⟩
    rw [hb, Option.some.injEq] at hb'
    subst hb'
    rcases hrange with ⟨ha, hrest⟩ | hwrite
    · exact Or.inl ⟨ha, hstart.mp hrest⟩
    · exact Or.inr hwrite
  · rintro (⟨ha, he⟩ | hwrite)
    · exact ⟨block, hb, Or.inl ⟨ha, hstart.mpr he⟩⟩
    · exact ⟨block, hb, Or.inr hwrite⟩

/-- Where a register is written and live at the end of the block, stretching its
    latest span makes all of them end where they should. -/
theorem mem_stretch_spans_iff {b : Nat} {block : Block M} (hb : f.blocks[b]? = some block)
    (hdef : f.Defines b r) (hout : f.LiveOutOf r b) {a e : Nat} :
    ⟨a, e⟩ ∈ stretch block.lastIndex (block.scan.spans r) ↔
      (a = 0 ∧ lastSeen r 0 block.code = some e) ∨
        ∃ i, block.code[a]? = some i ∧ r ∈ i.defs ∧
          block.Stops r (f.LiveOutOf r b) (a + 1) a e := by
  rw [(h.ascends hb).mem_stretch_iff, h.exists_later_span hb]
  constructor
  · rintro (⟨hspan, hlater⟩ | ⟨rfl, ⟨⟨c, e'⟩, ht, rfl⟩, hlast⟩)
    · -- A later write ends the value before the end of the block.
      rcases (h.mem_spans hb).mp hspan with hstart | ⟨i, hi, hd, he⟩
      · exact Or.inl hstart
      · exact Or.inr ⟨i, hi, hd, (Block.stops_iff_of_local fun _ => hlater).mpr he⟩
    · have hnone : ¬ block.WritesFrom r (c + 1) := by
        rw [← h.exists_later_span hb]
        rintro ⟨t, ht', hlt⟩
        exact absurd (hlast t ht') (Nat.not_le.mpr hlt)
      rcases (h.mem_spans hb).mp ht with ⟨rfl, he⟩ | ⟨i, hi, hd, _⟩
      · -- The value from before the block is overwritten by the write in it.
        exact absurd (h.writesFrom_one hb hdef he) hnone
      · exact Or.inr ⟨i, hi, hd, .last hout hnone⟩
  · rintro (⟨rfl, he⟩ | ⟨i, hi, hd, hstop⟩)
    · exact Or.inl ⟨(h.mem_spans hb).mpr (Or.inl ⟨rfl, he⟩), h.writesFrom_one hb hdef he⟩
    · by_cases hlater : block.WritesFrom r (a + 1)
      · refine Or.inl ⟨(h.mem_spans hb).mpr (Or.inr ⟨i, hi, hd, ?_⟩), hlater⟩
        exact (Block.stops_iff_of_local fun _ => hlater).mp hstop
      · refine Or.inr ⟨(Block.stops_iff_of_kept hout hlater).mp hstop, ?_, fun t ht => ?_⟩
        · exact ⟨⟨a, _⟩, (h.mem_spans hb).mpr (Or.inr ⟨i, hi, hd, rfl⟩), rfl⟩
        · by_contra hgt
          exact hlater ((h.exists_later_span hb).mp ⟨t, ht, Nat.not_le.mp hgt⟩)

/-- The spans of a block with the spread worked in are the ranges it should have. -/
theorem mem_spreadSpans_iff {b : Nat} {block : Block M} (hb : f.blocks[b]? = some block)
    {a e : Nat} :
    ⟨a, e⟩ ∈ spreadSpans (f.spreadOf r) b block.lastIndex (block.scan.spans r) ↔
      f.HasRange r b a e := by
  have hlt : b < f.size := (List.getElem?_eq_some_iff.mp hb).1
  unfold spreadSpans
  by_cases hthrough : b ∈ (f.spreadOf r).through
  · rcases (h.mem_through_iff hlt).mp hthrough with ⟨hdef, hout⟩
    rw [if_pos (by simpa using hthrough), h.hasRange_iff_of_through hb hdef hout,
      List.mem_singleton, Span.mk.injEq]
  · rw [if_neg (by simpa using hthrough)]
    have hlocal : f.LiveOutOf r b → f.Defines b r := by
      intro hout
      by_contra hdef
      exact hthrough ((h.mem_through_iff hlt).mpr ⟨hdef, hout⟩)
    rw [h.hasRange_iff_of_local hb hlocal]
    by_cases htails : b ∈ (f.spreadOf r).tails
    · rcases (h.mem_tails_iff hlt).mp htails with ⟨hdef, hout⟩
      rw [if_pos (by simpa using htails), h.mem_stretch_spans_iff hb hdef hout]
    · -- Dead at the end of the block, every span ends with its last read as it is.
      rw [if_neg (by simpa using htails), h.mem_spans hb]
      have hdead : ¬ f.LiveOutOf r b :=
        fun hout => htails ((h.mem_tails_iff hlt).mpr ⟨hlocal hout, hout⟩)
      refine or_congr_right (exists_congr fun i => and_congr_right fun _ => and_congr_right
        fun _ => ?_)
      exact (Block.stops_iff_of_local fun hout => absurd hout hdead).symm

theorem ascends_spreadSpans {b : Nat} {block : Block M} (hb : f.blocks[b]? = some block) :
    Ascends (spreadSpans (f.spreadOf r) b block.lastIndex (block.scan.spans r)) := by
  unfold spreadSpans
  split
  · exact List.pairwise_singleton _ _
  · split
    · exact (h.ascends hb).stretch block.lastIndex
    · exact h.ascends hb

end Trackable

/-- The scans of a function with the last indexes of its blocks. -/
def ends (f : Function M) : List (Scan M × Nat) :=
  (f.blocks.map Block.scan).zip (f.blocks.map Block.lastIndex)

theorem getElem?_ends {b : Nat} {scan : Scan M} {last : Nat} :
    f.ends[b]? = some (scan, last) ↔
      ∃ block, f.blocks[b]? = some block ∧ scan = block.scan ∧ last = block.lastIndex := by
  unfold ends
  rw [List.getElem?_zip_eq_some, List.getElem?_map, List.getElem?_map, Option.map_eq_some_iff,
    Option.map_eq_some_iff]
  constructor
  · rintro ⟨⟨block, hb, rfl⟩, ⟨block', hb', rfl⟩⟩
    rw [hb, Option.some.injEq] at hb'
    exact ⟨block, hb, rfl, by rw [hb']⟩
  · rintro ⟨block, hb, rfl, rfl⟩
    exact ⟨⟨block, hb, rfl⟩, ⟨block, hb, rfl⟩⟩

theorem Trackable.rangesIn_eq (h : f.Trackable r) {b : Nat} {scan : Scan M} {last : Nat}
    (hb : f.ends[b]? = some (scan, last)) :
    rangesIn b (spreadSpans (f.spreadOf r) b last (scan.spans r)) =
      (spreadSpans (f.spreadOf r) b last (scan.spans r)).map (Span.inBlock b) := by
  rcases getElem?_ends.mp hb with ⟨block, hblock, rfl, rfl⟩
  exact (h.ascends_spreadSpans hblock).rangesIn b

theorem Trackable.mem_vregRanges (h : f.Trackable r) {b a e : Nat} :
    ⟨b, a, e⟩ ∈ vregRanges f.ends (f.spreadOf r) r ↔ f.HasRange r b a e := by
  unfold vregRanges
  rw [List.mem_flatMap]
  constructor
  · -- The ranges of a block carry its label, so the range comes from block `b`.
    rintro ⟨⟨⟨scan, last⟩, c⟩, hmem, hrange⟩
    have hc := List.mem_zipIdx_iff_getElem?.mp hmem
    simp only at hrange hc
    rw [h.rangesIn_eq hc, List.mem_map] at hrange
    rcases hrange with ⟨⟨a', e'⟩, hspan, heq⟩
    rw [Span.inBlock, LiveRange.mk.injEq] at heq
    rcases heq with ⟨rfl, rfl, rfl⟩
    rcases getElem?_ends.mp hc with ⟨block, hblock, rfl, rfl⟩
    exact (h.mem_spreadSpans_iff hblock).mp hspan
  · intro hrange
    rcases hrange with ⟨block, hblock, hrest⟩
    have hc : f.ends[b]? = some (block.scan, block.lastIndex) :=
      getElem?_ends.mpr ⟨block, hblock, rfl, rfl⟩
    refine ⟨((block.scan, block.lastIndex), b), List.mem_zipIdx_iff_getElem?.mpr hc, ?_⟩
    simp only
    rw [h.rangesIn_eq hc, List.mem_map]
    exact ⟨⟨a, e⟩, (h.mem_spreadSpans_iff hblock).mpr ⟨block, hblock, hrest⟩, rfl⟩

theorem Ascends.nodup {spans : List Span} (h : Ascends spans) : spans.Nodup :=
  h.imp fun hlt heq => by
    rw [heq] at hlt
    exact Nat.lt_irrefl _ hlt

/-- No range is listed twice. -/
theorem Trackable.nodup_vregRanges (h : f.Trackable r) :
    (vregRanges f.ends (f.spreadOf r) r).Nodup := by
  unfold vregRanges
  rw [List.nodup_flatMap]
  constructor
  · rintro ⟨⟨scan, last⟩, b⟩ hmem
    have hb := List.mem_zipIdx_iff_getElem?.mp hmem
    simp only at hb ⊢
    rw [h.rangesIn_eq hb]
    rcases getElem?_ends.mp hb with ⟨block, hblock, rfl, rfl⟩
    refine List.Nodup.map (fun s t heq => ?_) (Ascends.nodup (h.ascends_spreadSpans hblock))
    obtain ⟨a, e⟩ := s
    obtain ⟨a', e'⟩ := t
    rw [Span.inBlock, Span.inBlock, LiveRange.mk.injEq] at heq
    rw [Span.mk.injEq]
    exact heq.2
  · -- Ranges of different blocks are different.
    rw [List.pairwise_iff_getElem]
    intro j k hj hk hjk
    refine List.disjoint_left.mpr fun x hx hx' => ?_
    have hblock : ∀ (b : Nat) (spans : List Span) (y : LiveRange), y ∈ rangesIn b spans →
        y.block = b := by
      intro b spans y hy
      rcases List.mem_map.mp hy with ⟨s, _, rfl⟩
      rfl
    rw [List.getElem_zipIdx] at hx hx'
    have hxj := hblock _ _ _ hx
    have hxk := hblock _ _ _ hx'
    omega

/-- Looking up what a function gives to the elements of a list. -/
theorem lookup_map_self {α : Type} {l : List (Register M)} (F : Register M → α) (hr : r ∈ l) :
    (l.map fun q => (q, F q)).lookup r = some (F r) := by
  induction l with
  | nil => exact absurd hr (by simp)
  | cons q l ih =>
      by_cases hq : r = q
      · subst hq
        simp
      · have hne : (r == q) = false := by simpa using hq
        rw [List.map_cons, List.lookup_cons, hne]
        exact ih ((List.mem_cons.mp hr).resolve_left hq)

/-- The registers that the analysis follows. -/
def tracked (f : Function M) : List (Register M) :=
  ascending Register.before
    (((f.blocks.map Block.scan).flatMap Scan.registers).filter Register.isVirtual)

theorem mem_virtuals_of_defines (hin : ∀ b ∈ f.blocks, b.inputs = []) {v : VReg M}
    (hdef : ∃ b, f.Defines b (.virtual v)) : .virtual v ∈ f.tracked := by
  unfold tracked
  rw [mem_ascending Register.before_apart, List.mem_filter]
  refine ⟨?_, rfl⟩
  rcases hdef with ⟨b, block, hb, hdef⟩
  have hmem := List.mem_of_getElem? hb
  have hdefines := (defines_scan_iff (hin block hmem)).mpr hdef
  refine List.mem_flatMap.mpr ⟨block.scan, List.mem_map.mpr ⟨block, hmem, rfl⟩, ?_⟩
  exact List.mem_append.mpr (Or.inr (Scan.isSome_lookup_iff.mp hdefines))

theorem liveness_eq {l : Liveness M} (hl : f.liveness = .ok l) :
    l = f.livenessOf (f.blocks.map Block.scan) := by
  unfold liveness at hl
  cases hphys : physicalLiveIn? (f.blocks.map Block.scan) with
  | some cause => simp [hphys] at hl
  | none =>
      simp only [hphys, Except.ok.injEq] at hl
      exact hl.symm

/-- The virtual registers come first among the ranges and hide none of the others. -/
theorem lookup_tracks_physical (f : Function M) (p : M.Reg) :
    ((f.tracks (f.blocks.map Block.scan)).map fun t => (t.reg, t.ranges)).lookup (.physical p) =
      none := by
  refine Scan.lookup_eq_none_of_not_mem ?_
  simp only [tracks, List.map_map, Function.comp_def, List.map_id_fun', id_eq]
  rw [mem_ascending Register.before_apart]
  intro hmem
  exact absurd (List.mem_filter.mp hmem).2 (by simp [Register.isVirtual])

theorem rangesOf_tracked {l : Liveness M} (hl : f.liveness = .ok l) (hr : r ∈ f.tracked) :
    l.rangesOf r = vregRanges f.ends (f.spreadOf r) r := by
  have hfound := lookup_map_self (fun q => vregRanges f.ends (f.spreadOf q) q) hr
  rw [liveness_eq hl]
  simp only [Liveness.rangesOf, livenessOf, tracks, List.map_map, Function.comp_def,
    List.lookup_append]
  exact congrArg (fun o => (Option.or o _).getD []) hfound

theorem mem_liveIn_tracked {l : Liveness M} (hl : f.liveness = .ok l) {b : Nat} (hb : b < f.size) :
    r ∈ l.liveIn[b]?.getD [] ↔
      r ∈ f.tracked ∧ (f.presence r).liveInto (f.spreadOf r) b = true := by
  rw [liveness_eq hl]
  simp only [livenessOf, List.getElem?_map, List.getElem?_range hb, Option.map_some,
    Option.getD_some, List.mem_filterMap, tracks, List.mem_map]
  constructor
  · rintro ⟨t, ⟨q, hq, rfl⟩, ht⟩
    simp only at ht
    split at ht
    · rename_i hlive
      rw [Option.some.injEq] at ht
      subst ht
      simp only [List.contains_eq_mem, decide_eq_true_eq, List.mem_filter] at hlive
      exact ⟨hq, hlive.2⟩
    · exact absurd ht (by simp)
  · rintro ⟨hmet, hlive⟩
    refine ⟨_, ⟨r, hmet, rfl⟩, ?_⟩
    simp only
    rw [if_pos]
    simp only [List.contains_eq_mem, decide_eq_true_eq, List.mem_filter, List.mem_range]
    exact ⟨hb, hlive⟩

theorem rangesOf_eq {l : Liveness M} (hl : f.liveness = .ok l)
    (hin : ∀ b ∈ f.blocks, b.inputs = []) {v : VReg M} (hdef : ∃ b, f.Defines b (.virtual v)) :
    l.rangesOf (.virtual v) = vregRanges f.ends (f.spreadOf (.virtual v)) (.virtual v) :=
  rangesOf_tracked hl (mem_virtuals_of_defines hin hdef)

theorem mem_liveIn_iff {l : Liveness M} (hl : f.liveness = .ok l)
    (hin : ∀ b ∈ f.blocks, b.inputs = []) {v : VReg M} (hdef : ∃ b, f.Defines b (.virtual v))
    {b : Nat} (hb : b < f.size) :
    .virtual v ∈ l.liveIn[b]?.getD [] ↔
      (f.presence (.virtual v)).liveInto (f.spreadOf (.virtual v)) b = true := by
  rw [mem_liveIn_tracked hl hb]
  exact and_iff_right (mem_virtuals_of_defines hin hdef)

/-- What a strict register is needed for is written on every walk. -/
theorem Strict.available_of_exposes (hstrict : f.Strict r) {b : Nat} {block : Block M}
    (hb : f.blocks[b]? = some block) (hexposes : block.Exposes r) : f.Available b r := by
  rcases hexposes with ⟨hinputs, j, ⟨i, hi, hread⟩, hclean⟩
  refine (hstrict b block j i hb hi hread).resolve_left ?_
  rintro (⟨v, hv, hrv⟩ | ⟨k, hk, hdef⟩)
  · exact hinputs v hv hrv
  · rcases mem_take_iff.mp hk with ⟨m, hlt, hm⟩
    exact hclean m hlt k hm hdef

/-- Only the reads that see values from before their blocks need a write on every walk. -/
theorem Strict.of_exposes (h : ∀ b block, f.blocks[b]? = some block → block.Exposes r →
    f.Available b r) : f.Strict r := by
  intro b block k i hb hk hread
  by_cases hbefore : block.DefinesBefore k r
  · exact Or.inl hbefore
  · refine Or.inr (h b block hb ⟨fun v hv hrv => ?_, k, ⟨i, hk, hread⟩, fun m hm j hj hdef => ?_⟩)
    · exact hbefore (Or.inl ⟨v, hv, hrv⟩)
    · exact hbefore (Or.inr ⟨j, mem_take_iff.mpr ⟨m, hm, hj⟩, hdef⟩)

/-- A function on which the analysis is exact, for every virtual register that some
    instruction writes. -/
structure Tractable (f : Function M) : Prop where
  inputs : ∀ b ∈ f.blocks, b.inputs = []
  terminated : ∀ b ∈ f.blocks, b.Terminated
  /-- Terminators write nothing. -/
  quiet : ∀ b ∈ f.blocks, ∀ i ∈ b.run, i.defs = []
  reached : ∀ b < f.size, ∃ path, Walk f.next path b
  once : ∀ b ∈ f.blocks, ∀ i ∈ b.code, ∀ v : VReg M, i.defs.count (.virtual v) ≤ 1
  apart : ∀ b ∈ f.blocks, ∀ i ∈ b.code, ∀ v : VReg M, .virtual v ∈ i.defs → .virtual v ∉ i.reads
  settled : ∀ (v : VReg M) c, f.Defines c (.virtual v) →
    (f.presence (.virtual v)).Settled f.next

theorem Tractable.trackable (h : f.Tractable) {v : VReg M} {c : Nat}
    (hdef : f.Defines c (.virtual v)) : f.Trackable (.virtual v) where
  inputs := h.inputs
  reached := h.reached
  solitary := Register.solitary_virtual v
  once b hb i hi := h.once b hb i hi v
  apart b hb i hi := h.apart b hb i hi v
  settled := h.settled v c hdef

end Function

end RegisterColoring
