import Mathlib.Data.List.Nodup
import RegisterColoring.Live.Scan
import RegisterColoring.Proofs.Shape

/-!
# What a Scan Finds

The backward scan of a block, read forwards. For a register that aliases no other,
a pending read is the last one before the next write, and the spans of its writes
reach from each write to the last read before the next. `Sees` says which reads
see the value that is there before some code, without any scan, and everything
that the scan holds about a register is stated in terms of it.

Registers that alias others share spans, so nothing like this is true of them. A
virtual register has storage of its own.

## Main definitions

* `Register.Solitary`: The register aliases itself alone.
* `Sees`: A read sees the value from before the code.
* `Needs`: Some read does.
* `lastSeen`: The last such read.
* `writeSpans`: The spans of a register from its writes.

## Theorems

* `needs_append`: What code in two parts needs.
* `lastSeen_eq_some`: The last read, said without recursion.
* `lookup_scanCode`: The pending read of a scan.
* `writesOf_scanCode`: The spans of a scan.
-/

namespace RegisterColoring

variable {M : Machine}

/-- The register aliases itself and no other. -/
def Register.Solitary (r : Register M) : Prop :=
  ∀ q : Register M, (q.aliases r = true ↔ q = r) ∧ (r.aliases q = true ↔ q = r)

theorem Register.solitary_virtual (v : VReg M) : (Register.virtual v).Solitary := by
  intro q
  cases q with
  | virtual w =>
      refine ⟨decide_eq_true_iff, ?_⟩
      rw [eq_comm (a := Register.virtual w)]
      exact decide_eq_true_iff
  | physical p => simp [Register.aliases]

/-- Instruction `j` of the code reads `r` and none before it writes `r`. -/
def Sees (r : Register M) (code : List (Instr M)) (j : Nat) : Prop :=
  (∃ i, code[j]? = some i ∧ r ∈ i.reads) ∧ ∀ m < j, ∀ i, code[m]? = some i → r ∉ i.defs

/-- Some read of `r` in the code sees the value from before it. -/
def Needs (r : Register M) (code : List (Instr M)) : Prop :=
  ∃ j, Sees r code j

/-- The last read of `r` before its next write, the operands of which still count,
    in code that starts at `index`. -/
def lastSeen (r : Register M) (index : Nat) : List (Instr M) → Option Nat
  | [] => none
  | i :: rest =>
      let here := if r ∈ i.reads then some index else none
      if r ∈ i.defs then here else (lastSeen r (index + 1) rest).or here

/-- The spans from the writes of `r` to the last reads of the values. -/
def writeSpans (r : Register M) (index : Nat) : List (Instr M) → List Span
  | [] => []
  | i :: rest =>
      if r ∈ i.defs then
        ⟨index, (lastSeen r (index + 1) rest).getD index⟩ :: writeSpans r (index + 1) rest
      else writeSpans r (index + 1) rest

theorem sees_zero {r : Register M} {i : Instr M} {rest : List (Instr M)} :
    Sees r (i :: rest) 0 ↔ r ∈ i.reads := by
  unfold Sees
  simp

theorem sees_succ {r : Register M} {i : Instr M} {rest : List (Instr M)} {j : Nat} :
    Sees r (i :: rest) (j + 1) ↔ r ∉ i.defs ∧ Sees r rest j := by
  unfold Sees
  constructor
  · rintro ⟨hread, hclean⟩
    refine ⟨hclean 0 (by omega) i rfl, by simpa using hread, fun m hm k hk => ?_⟩
    exact hclean (m + 1) (by omega) k (by simpa using hk)
  · rintro ⟨hdef, hread, hclean⟩
    refine ⟨by simpa using hread, fun m hm k hk => ?_⟩
    cases m with
    | zero =>
        have hik : i = k := by simpa using hk
        exact hik ▸ hdef
    | succ m => exact hclean m (by omega) k (by simpa using hk)

theorem not_sees_nil {r : Register M} {j : Nat} : ¬ Sees r [] j := by
  unfold Sees
  simp

theorem not_needs_nil {r : Register M} : ¬ Needs r [] :=
  fun ⟨_, h⟩ => not_sees_nil h

theorem needs_cons {r : Register M} {i : Instr M} {rest : List (Instr M)} :
    Needs r (i :: rest) ↔ r ∈ i.reads ∨ (r ∉ i.defs ∧ Needs r rest) := by
  constructor
  · rintro ⟨j, hj⟩
    cases j with
    | zero => exact Or.inl (sees_zero.mp hj)
    | succ j =>
        have h := sees_succ.mp hj
        exact Or.inr ⟨h.1, j, h.2⟩
  · rintro (hread | ⟨hdef, j, hj⟩)
    · exact ⟨0, sees_zero.mpr hread⟩
    · exact ⟨j + 1, sees_succ.mpr ⟨hdef, hj⟩⟩

/-- Code needs what its first part needs, and what its second part needs and the
    first does not write. -/
theorem needs_append {r : Register M} {code rest : List (Instr M)} :
    Needs r (code ++ rest) ↔ Needs r code ∨ ((∀ i ∈ code, r ∉ i.defs) ∧ Needs r rest) := by
  induction code with
  | nil => simp [not_needs_nil]
  | cons i code ih =>
      rw [List.cons_append, needs_cons, needs_cons, ih, List.forall_mem_cons]
      tauto

theorem Needs.exists_read {r : Register M} {code : List (Instr M)} (h : Needs r code) :
    ∃ i ∈ code, r ∈ i.reads := by
  rcases h with ⟨j, ⟨i, hi, hread⟩, _⟩
  exact ⟨i, List.mem_of_getElem? hi, hread⟩

/-- Code that does not write a register needs it if it reads it. -/
theorem needs_of_not_written {r : Register M} {code : List (Instr M)}
    (hdefs : ∀ i ∈ code, r ∉ i.defs) {i : Instr M} (hi : i ∈ code) (hread : r ∈ i.reads) :
    Needs r code := by
  rcases List.getElem?_of_mem hi with ⟨j, hj⟩
  exact ⟨j, ⟨i, hj, hread⟩, fun m _ k hk => hdefs k (List.mem_of_getElem? hk)⟩

/-- A value that nothing reads has no last read. -/
theorem lastSeen_eq_none_iff {r : Register M} {index : Nat} {code : List (Instr M)} :
    lastSeen r index code = none ↔ ¬ Needs r code := by
  induction code generalizing index with
  | nil => simp [lastSeen, not_needs_nil]
  | cons i rest ih =>
      rw [needs_cons, not_or]
      simp only [lastSeen]
      by_cases hr : r ∈ i.reads
      · by_cases hd : r ∈ i.defs <;> simp [hr, hd]
      · by_cases hd : r ∈ i.defs
        · simp [hr, hd]
        · simp [hr, hd, ih]

/-- The last read of a value is a read of it, and no later one is. -/
theorem lastSeen_eq_some {r : Register M} {index e : Nat} {code : List (Instr M)}
    (h : lastSeen r index code = some e) :
    ∃ j, e = index + j ∧ Sees r code j ∧ ∀ k, Sees r code k → k ≤ j := by
  induction code generalizing index with
  | nil => exact absurd h (by simp [lastSeen])
  | cons i rest ih =>
      simp only [lastSeen] at h
      by_cases hd : r ∈ i.defs
      · -- The write ends the life of the value, whatever follows.
        rw [if_pos hd] at h
        by_cases hr : r ∈ i.reads
        · rw [if_pos hr, Option.some.injEq] at h
          refine ⟨0, by omega, sees_zero.mpr hr, fun k hk => ?_⟩
          cases k with
          | zero => omega
          | succ k => exact absurd hd (sees_succ.mp hk).1
        · rw [if_neg hr] at h
          exact absurd h (by simp)
      · rw [if_neg hd] at h
        cases hrest : lastSeen r (index + 1) rest with
        | some e' =>
            -- A later read comes after the one here, if there is one.
            rw [hrest, Option.some_or, Option.some.injEq] at h
            rw [h] at hrest
            rcases ih hrest with ⟨j, hj, hsees, hlast⟩
            refine ⟨j + 1, by omega, sees_succ.mpr ⟨hd, hsees⟩, fun k hk => ?_⟩
            cases k with
            | zero => omega
            | succ k =>
                have := hlast k (sees_succ.mp hk).2
                omega
        | none =>
            rw [hrest, Option.none_or] at h
            by_cases hr : r ∈ i.reads
            · rw [if_pos hr, Option.some.injEq] at h
              refine ⟨0, by omega, sees_zero.mpr hr, fun k hk => ?_⟩
              cases k with
              | zero => omega
              | succ k => exact absurd ⟨k, (sees_succ.mp hk).2⟩ (lastSeen_eq_none_iff.mp hrest)
            · rw [if_neg hr] at h
              exact absurd h (by simp)

theorem exists_lastSeen_iff {r : Register M} {index : Nat} {code : List (Instr M)} :
    (∃ e, lastSeen r index code = some e) ↔ Needs r code := by
  rw [← Option.ne_none_iff_exists', Ne, lastSeen_eq_none_iff, Classical.not_not]

namespace Scan

variable {s : Scan M} {r : Register M}

/-- The spans that a scan has recorded for the writes of a register. -/
def writesOf (s : Scan M) (r : Register M) : List Span :=
  s.writes.filterMap fun (w, span) => if w = r then some span else none

/-- Every register is pending once. -/
def Distinct (s : Scan M) : Prop :=
  (s.pending.map Prod.fst).Nodup

theorem lookup_filter {α : Type} {l : List (Register M × α)} (p : Register M → Bool)
    (r : Register M) :
    (l.filter fun entry => p entry.1).lookup r = if p r then l.lookup r else none := by
  induction l with
  | nil => simp
  | cons entry l ih =>
      obtain ⟨q, x⟩ := entry
      by_cases hq : p q = true
      · rw [List.filter_cons_of_pos (by exact hq), List.lookup_cons, List.lookup_cons, ih]
        by_cases hrq : r = q
        · subst hrq
          simp [hq]
        · have hne : (r == q) = false := by simpa using hrq
          rw [hne]
      · rw [List.filter_cons_of_neg (by exact hq), ih, List.lookup_cons]
        by_cases hrq : r = q
        · subst hrq
          simp [hq]
        · have hne : (r == q) = false := by simpa using hrq
          rw [hne]

theorem isSome_lookup_iff {α : Type} {l : List (Register M × α)} :
    (l.lookup r).isSome = true ↔ r ∈ l.map Prod.fst := by
  rw [List.lookup_isSome_iff, List.mem_map]
  refine exists_congr fun entry => and_congr_right fun _ => ?_
  rw [beq_iff_eq, eq_comm]

theorem lookup_eq_none_of_not_mem {α : Type} {l : List (Register M × α)}
    (h : r ∉ l.map Prod.fst) : l.lookup r = none :=
  Option.not_isSome_iff_eq_none.mp fun hsome => h (isSome_lookup_iff.mp hsome)

/-- Among different registers, a solitary one shares its entry with no other. -/
theorem filter_aliases_eq (hr : r.Solitary) {l : List (Register M × Nat)}
    (hl : (l.map Prod.fst).Nodup) :
    (l.filter fun entry => entry.1.aliases r).map Prod.snd = (l.lookup r).toList := by
  induction l with
  | nil => rfl
  | cons entry l ih =>
      obtain ⟨q, x⟩ := entry
      rw [List.map_cons, List.nodup_cons] at hl
      by_cases hq : q = r
      · -- The entry of the register itself, and there is no second one.
        subst hq
        have halias : q.aliases q = true := (hr q).1.mpr rfl
        rw [List.filter_cons_of_pos (by exact halias), List.map_cons, ih hl.2,
          lookup_eq_none_of_not_mem hl.1]
        simp
      · have halias : ¬ q.aliases r = true := fun h => hq ((hr q).1.mp h)
        have hne : (r == q) = false := by simpa using fun h => hq h.symm
        rw [List.filter_cons_of_neg (by exact halias), ih hl.2, List.lookup_cons, hne]

/-- The last read of a solitary register is the pending one. -/
theorem lastRead_eq (hr : r.Solitary) (hs : s.Distinct) : s.lastRead? r = s.pending.lookup r := by
  unfold lastRead?
  rw [filter_aliases_eq hr hs]
  cases s.pending.lookup r with
  | none => rfl
  | some x => rfl

theorem lookup_write (hr : r.Solitary) (index : Nat) (q : Register M) :
    (s.write index q).pending.lookup r = if q = r then none else s.pending.lookup r := by
  unfold write
  rw [lookup_filter (fun w => !w.aliases q)]
  by_cases hq : q = r
  · have halias : r.aliases q = true := (hr q).2.mpr hq
    rw [if_pos hq, if_neg (by simp [halias])]
  · have halias : r.aliases q = false := by
      rw [Bool.eq_false_iff]
      exact fun h => hq ((hr q).2.mp h)
    rw [if_neg hq, if_pos (by simp [halias])]

theorem Distinct.write (hs : s.Distinct) (index : Nat) (q : Register M) :
    (s.write index q).Distinct := by
  unfold Distinct Scan.write
  exact List.Nodup.sublist (List.Sublist.map _ List.filter_sublist) hs

theorem Distinct.read (hs : s.Distinct) (index : Nat) (q : Register M) :
    (s.read index q).Distinct := by
  unfold Scan.read
  by_cases hq : (s.pending.lookup q).isSome = true
  · rw [if_pos hq]
    exact hs
  · rw [if_neg hq]
    exact List.nodup_cons.mpr ⟨fun hmem => hq (isSome_lookup_iff.mpr hmem), hs⟩

theorem lookup_read (index : Nat) (q : Register M) :
    (s.read index q).pending.lookup r =
      (s.pending.lookup r).or (if q = r then some index else none) := by
  unfold Scan.read
  by_cases hq : (s.pending.lookup q).isSome = true
  · rw [if_pos hq]
    by_cases hqr : q = r
    · -- A later read is pending already and stays.
      rcases Option.isSome_iff_exists.mp hq with ⟨x, hx⟩
      rw [← hqr, hx]
      rfl
    · rw [if_neg hqr, Option.or_none]
  · rw [if_neg hq, List.lookup_cons]
    by_cases hqr : q = r
    · have hnone : s.pending.lookup q = none := Option.not_isSome_iff_eq_none.mp hq
      rw [← hqr, hnone]
      simp
    · have hne : (r == q) = false := by simpa using fun h => hqr h.symm
      rw [hne, if_neg hqr, Option.or_none]

/-- What the writes of one instruction do to the pending reads of a register. -/
theorem lookup_foldl_write (hr : r.Solitary) (index : Nat) (defs : List (Register M)) :
    (defs.foldl (write index) s).pending.lookup r =
      if r ∈ defs then none else s.pending.lookup r := by
  induction defs generalizing s with
  | nil => simp
  | cons q defs ih =>
      rw [List.foldl_cons, ih, lookup_write hr]
      by_cases hq : q = r
      · simp [hq]
      · have hq' : ¬ r = q := fun h => hq h.symm
        simp [hq, hq']

theorem Distinct.foldl_write (hs : s.Distinct) (index : Nat) (defs : List (Register M)) :
    (defs.foldl (Scan.write index) s).Distinct := by
  induction defs generalizing s with
  | nil => exact hs
  | cons q defs ih => exact ih (hs.write index q)

theorem Distinct.foldl_read (hs : s.Distinct) (index : Nat) (reads : List (Register M)) :
    (reads.foldl (Scan.read index) s).Distinct := by
  induction reads generalizing s with
  | nil => exact hs
  | cons q reads ih => exact ih (hs.read index q)

theorem writesOf_write (hr : r.Solitary) (hs : s.Distinct) (index : Nat) (q : Register M) :
    (s.write index q).writesOf r =
      (if q = r then [⟨index, (s.pending.lookup r).getD index⟩] else []) ++ s.writesOf r := by
  unfold writesOf Scan.write
  by_cases hq : q = r
  · subst hq
    simp [lastRead_eq hr hs]
  · simp [hq]

/-- An instruction that lists a register at most once records one span for it. -/
theorem writesOf_foldl_write (hr : r.Solitary) (hs : s.Distinct) (index : Nat)
    {defs : List (Register M)} (honce : defs.count r ≤ 1) :
    (defs.foldl (write index) s).writesOf r =
      (if r ∈ defs then [⟨index, (s.pending.lookup r).getD index⟩] else []) ++ s.writesOf r := by
  induction defs generalizing s with
  | nil => simp
  | cons q defs ih =>
      rw [List.count_cons] at honce
      rw [List.foldl_cons, ih (hs.write index q) (by omega), lookup_write hr,
        writesOf_write hr hs]
      by_cases hq : q = r
      · -- Written here, so not again.
        have hnot : r ∉ defs := by
          rw [hq] at honce
          simp only [beq_self_eq_true, if_true] at honce
          exact List.count_eq_zero.mp (by omega)
        simp [hq, hnot]
      · have hq' : ¬ r = q := fun h => hq h.symm
        simp [hq, hq']

theorem mem_foldl_write (index : Nat) (defs : List (Register M)) :
    r ∈ (defs.foldl (write index) s).writes.map Prod.fst ↔
      r ∈ defs ∨ r ∈ s.writes.map Prod.fst := by
  induction defs generalizing s with
  | nil => simp
  | cons q defs ih =>
      rw [List.foldl_cons, ih, List.mem_cons]
      simp only [Scan.write, List.map_cons, List.mem_cons]
      rw [← or_assoc, or_comm (a := r ∈ defs)]

/-- Reads only change what is pending. -/
theorem writes_foldl_read (index : Nat) (reads : List (Register M)) :
    (reads.foldl (read index) s).writes = s.writes := by
  induction reads generalizing s with
  | nil => rfl
  | cons q reads ih =>
      rw [List.foldl_cons, ih, read]
      split <;> rfl

theorem lookup_foldl_read (index : Nat) (reads : List (Register M)) :
    (reads.foldl (read index) s).pending.lookup r =
      (s.pending.lookup r).or (if r ∈ reads then some index else none) := by
  induction reads generalizing s with
  | nil => simp
  | cons q reads ih =>
      rw [List.foldl_cons, ih, lookup_read]
      cases s.pending.lookup r with
      | some x => rfl
      | none =>
          by_cases hq : q = r
          · simp [hq]
          · have hq' : ¬ r = q := fun h => hq h.symm
            simp [hq, hq']

end Scan

variable {r : Register M}

theorem distinct_scanCode (index : Nat) (code : List (Instr M)) :
    (scanCode index code).Distinct := by
  induction code generalizing index with
  | nil => exact List.nodup_nil
  | cons i rest ih => exact ((ih (index + 1)).foldl_write index i.defs).foldl_read index i.reads

/-- The pending read of a register is the last one before the next write. -/
theorem lookup_scanCode (hr : r.Solitary) (index : Nat) (code : List (Instr M)) :
    (scanCode index code).pending.lookup r = lastSeen r index code := by
  induction code generalizing index with
  | nil => rfl
  | cons i rest ih =>
      simp only [scanCode, Scan.instr, lastSeen]
      rw [Scan.lookup_foldl_read, Scan.lookup_foldl_write hr, ih]
      by_cases hd : r ∈ i.defs
      · rw [if_pos hd, if_pos hd, Option.none_or]
      · rw [if_neg hd, if_neg hd]

/-- What a scan has recorded above an instruction are the writes of the instruction and those
    below it. -/
theorem writes_scanCode_cons (index : Nat) (i : Instr M) (rest : List (Instr M)) :
    (scanCode index (i :: rest)).writes =
      (i.defs.foldl (Scan.write index) (scanCode (index + 1) rest)).writes :=
  Scan.writes_foldl_read index i.reads

theorem writesOf_scanCode_cons (index : Nat) (i : Instr M) (rest : List (Instr M)) :
    (scanCode index (i :: rest)).writesOf r =
      (i.defs.foldl (Scan.write index) (scanCode (index + 1) rest)).writesOf r := by
  unfold Scan.writesOf
  rw [writes_scanCode_cons]

/-- The spans of a register reach from its writes to the last reads of the values. -/
theorem writesOf_scanCode (hr : r.Solitary) (index : Nat) {code : List (Instr M)}
    (honce : ∀ i ∈ code, i.defs.count r ≤ 1) :
    (scanCode index code).writesOf r = writeSpans r index code := by
  induction code generalizing index with
  | nil => rfl
  | cons i rest ih =>
      -- The code is scanned backwards, so the rest comes before the instruction.
      rw [writesOf_scanCode_cons, writeSpans, Scan.writesOf_foldl_write hr
        (distinct_scanCode _ rest) index (honce i (by simp)), lookup_scanCode hr,
        ih (index + 1) fun j hj => honce j (by simp [hj])]
      by_cases hd : r ∈ i.defs
      · rw [if_pos hd, if_pos hd]
        rfl
      · rw [if_neg hd, if_neg hd]
        rfl

/-- The registers whose writes a scan has recorded are those that the code writes. -/
theorem mem_writes_scanCode (index : Nat) (code : List (Instr M)) :
    r ∈ (scanCode index code).writes.map Prod.fst ↔ ∃ i ∈ code, r ∈ i.defs := by
  induction code generalizing index with
  | nil => simp [scanCode, Scan.empty]
  | cons i rest ih =>
      rw [writes_scanCode_cons, Scan.mem_foldl_write]
      refine (or_congr_right (ih (index + 1))).trans ?_
      simp

end RegisterColoring
