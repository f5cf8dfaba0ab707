import Mathlib.Logic.Relation
import RegisterColoring.Machine.X86
import RegisterColoring.Proofs.LocalRanges
import RegisterColoring.Proofs.RenumberedInputs
import RegisterColoring.Proofs.Tracked

/-!
# Ranges of Register Families

Physical registers of one family are windows on the same storage. A write to any of them
ends the values of all, and a read of any of them reads what was written last, whatever
name it was written under. The analysis keeps the ranges of a family in one list, in the
ledger of the writes that its scans meet.

Naming every register after its family turns all this into facts about single registers. What
a scan holds about the reads of a family is what the renamed code says about its name, so
`Sees` and `lastSeen` serve for families as they do for registers that alias no other.

An instruction may write several registers of one family. The scan meets its results one
after the other, so the first of them gets the range up to the last read, and the others get
ranges that end where they start.

## Main definitions

* `Register.family`: The name of the storage that a register is a window on.
* `Machine.Ancestor`: One of the registers that a register is part of, or itself.
* `Block.ExposesStorage`: A read of storage that the block has not written.
* `Block.StorageEnds`: Where the value in a storage is read last.
* `Function.TracksFamilies`: The ranges of physical registers are those of their families.

## Theorems

* `Scan.lastRead_write`, `Scan.lastRead_read`: What one write and one read do to a family.
* `lastRead_scanCode`: The last pending read of a family, said in the renamed code.
* `exists_write_scanCode`, `write_scanCode_cases`: The spans that a scan records.
* `Function.mem_rangesOf_physical_iff`: The ranges under a physical register.
* `Function.liveness_tracks_families`: The analysis fails exactly on exposed storage, and otherwise
  tracks families.
* `Function.widening_tracked`: A family whose list moves as wider registers are written.
-/

namespace RegisterColoring

variable {M : Machine}

/-- The name of the storage of a register. A virtual register has its own. -/
def Register.family : Register M → Register M
  | virtual v => virtual v
  | physical p => physical (M.family p)

theorem Register.aliases_iff {r q : Register M} : r.aliases q = true ↔ r.family = q.family := by
  cases r with
  | virtual v => cases q <;> simp [aliases, family]
  | physical p =>
      cases q with
      | virtual v => simp [aliases, family]
      | physical q => simp [aliases, family, Machine.aliases_iff]

theorem Register.family_physical_eq_iff {r : Register M} {p : M.Reg} :
    r.family = .physical (M.family p) ↔ ∃ q, r = .physical q ∧ Machine.aliases q p = true := by
  cases r with
  | virtual v => simp [family]
  | physical q => simp [family, Machine.aliases_iff]

/-- The name of a family stands for any of its registers. -/
theorem Register.mem_map_family {l : List (Register M)} {p : M.Reg} :
    .physical (M.family p) ∈ l.map Register.family ↔
      ∃ q, .physical q ∈ l ∧ Machine.aliases q p = true := by
  rw [List.mem_map]
  constructor
  · rintro ⟨r, hr, hfamily⟩
    rcases family_physical_eq_iff.mp hfamily with ⟨q, rfl, halias⟩
    exact ⟨q, hr, halias⟩
  · rintro ⟨q, hq, halias⟩
    exact ⟨.physical q, hq, family_physical_eq_iff.mpr ⟨q, rfl, halias⟩⟩

namespace Scan

variable {s : Scan M} {r q : Register M} {index : Nat}

theorem lastRead_congr (h : r.family = q.family) : s.lastRead? r = s.lastRead? q := by
  have hsame : ∀ w : Register M, w.aliases r = w.aliases q := by
    intro w
    rw [Bool.eq_iff_iff, Register.aliases_iff, Register.aliases_iff, h]
  simp only [lastRead?, hsame]

theorem lastRead_eq_none_iff :
    s.lastRead? r = none ↔ ∀ entry ∈ s.pending, entry.1.family ≠ r.family := by
  unfold lastRead?
  rw [List.max?_eq_none_iff, List.map_eq_nil_iff, List.filter_eq_nil_iff]
  simp only [Register.aliases_iff, ne_eq]

/-- A write takes all reads of the family with it. -/
theorem lastRead_write : (s.write index q).lastRead? r =
    if q.family = r.family then none else s.lastRead? r := by
  by_cases hq : q.family = r.family
  · rw [if_pos hq, lastRead_eq_none_iff]
    intro entry hentry hfamily
    have hkept := (List.mem_filter.mp hentry).2
    rw [Register.aliases_iff.mpr (hfamily.trans hq.symm)] at hkept
    exact absurd hkept (by simp)
  · -- A register of the family of `r` is none of the family of `q`.
    rw [if_neg hq]
    simp only [lastRead?, write, List.filter_filter]
    refine congrArg (fun l => (List.map Prod.snd l).max?) (List.filter_congr fun entry _ => ?_)
    rw [Bool.and_eq_left_iff_imp]
    intro hr
    rw [Bool.not_eq_true', Bool.eq_false_iff, Ne, Register.aliases_iff]
    exact fun hfamily => hq (hfamily.symm.trans (Register.aliases_iff.mp hr))

theorem lastRead_foldl_write (defs : List (Register M)) :
    (defs.foldl (write index) s).lastRead? r =
      if r.family ∈ defs.map Register.family then none else s.lastRead? r := by
  induction defs generalizing s with
  | nil => simp
  | cons q defs ih =>
      rw [List.foldl_cons, ih, lastRead_write]
      by_cases hq : q.family = r.family
      · simp [hq]
      · have hq' : ¬ r.family = q.family := fun h => hq h.symm
        simp [hq, hq']

/-- No pending read comes before `index`. -/
def StartsAt (s : Scan M) (index : Nat) : Prop :=
  ∀ entry ∈ s.pending, index ≤ entry.2

/-- A read is the last one of its family, unless one is pending already. -/
theorem lastRead_read (hs : s.StartsAt index) : (s.read index q).lastRead? r =
    (s.lastRead? r).or (if q.family = r.family then some index else none) := by
  unfold read
  by_cases hpending : (s.pending.lookup q).isSome = true
  · rw [if_pos hpending]
    by_cases hq : q.family = r.family
    · -- The register itself is pending, so its family has a last read.
      rcases List.mem_map.mp (isSome_lookup_iff.mp hpending) with ⟨entry, hentry, rfl⟩
      cases hlast : s.lastRead? r with
      | none => exact absurd hq (lastRead_eq_none_iff.mp hlast entry hentry)
      | some e => rfl
    · rw [if_neg hq, Option.or_none]
  · rw [if_neg hpending]
    by_cases hq : q.family = r.family
    · rw [if_pos hq]
      unfold lastRead?
      rw [List.filter_cons_of_pos (by exact Register.aliases_iff.mpr hq), List.map_cons,
        List.max?_cons]
      cases hlast : ((s.pending.filter fun entry => entry.1.aliases r).map Prod.snd).max? with
      | none => rfl
      | some e =>
          rcases List.mem_map.mp (List.max?_mem hlast) with ⟨entry, hentry, rfl⟩
          have hle := hs entry (List.mem_filter.mp hentry).1
          exact congrArg some (Nat.max_eq_right hle)
    · rw [if_neg hq, Option.or_none]
      unfold lastRead?
      rw [List.filter_cons_of_neg]
      exact fun h => hq (Register.aliases_iff.mp h)

theorem StartsAt.write (hs : s.StartsAt index) : (s.write index q).StartsAt index :=
  fun entry hentry => hs entry (List.mem_filter.mp hentry).1

theorem StartsAt.read (hs : s.StartsAt index) : (s.read index q).StartsAt index := by
  unfold Scan.read
  split
  · exact hs
  · intro entry hentry
    rcases List.mem_cons.mp hentry with rfl | hentry
    · exact Nat.le_refl index
    · exact hs entry hentry

theorem StartsAt.instr (hs : s.StartsAt (index + 1)) (i : Instr M) :
    (i.defs.foldl (Scan.write index) s).StartsAt index ∧ (s.instr index i).StartsAt index := by
  have hbelow : s.StartsAt index := fun entry hentry => Nat.le_of_succ_le (hs entry hentry)
  have hwritten : (i.defs.foldl (Scan.write index) s).StartsAt index :=
    foldl_inv (I := fun t : Scan M => t.StartsAt index) (fun _ _ _ h => h.write) hbelow
  exact ⟨hwritten, foldl_inv (I := fun t : Scan M => t.StartsAt index) (fun _ _ _ h => h.read)
    hwritten⟩

theorem lastRead_foldl_read (hs : s.StartsAt index) (reads : List (Register M)) :
    (reads.foldl (read index) s).lastRead? r =
      (s.lastRead? r).or (if r.family ∈ reads.map Register.family then some index else none) := by
  induction reads generalizing s with
  | nil => simp
  | cons q reads ih =>
      rw [List.foldl_cons, ih hs.read, lastRead_read hs, Option.or_assoc]
      by_cases hq : q.family = r.family
      · simp [hq]
      · have hq' : ¬ r.family = q.family := fun h => hq h.symm
        simp [hq, hq']

/-- Nothing that is recorded gets lost. -/
theorem writes_subset_foldl_write {defs : List (Register M)} :
    s.writes ⊆ (defs.foldl (write index) s).writes :=
  foldl_inv (I := fun t : Scan M => s.writes ⊆ t.writes)
    (fun _ _ _ h => List.Subset.trans h (List.subset_cons_self _ _)) (List.Subset.refl _)

/-- Of the results that share the storage of `r`, the first one lives up to the last read. -/
theorem exists_mem_foldl_write {defs : List (Register M)}
    (h : r.family ∈ defs.map Register.family) :
    ∃ q ∈ defs, q.family = r.family ∧ (q, ⟨index, (s.lastRead? r).getD index⟩) ∈
      (defs.foldl (write index) s).writes := by
  induction defs generalizing s with
  | nil => exact absurd h (by simp)
  | cons q defs ih =>
      rw [List.foldl_cons]
      by_cases hq : q.family = r.family
      · refine ⟨q, List.mem_cons_self, hq, writes_subset_foldl_write ?_⟩
        rw [← lastRead_congr hq]
        exact List.mem_cons_self
      · have hrest : r.family ∈ defs.map Register.family :=
          (List.mem_cons.mp h).resolve_left fun heq => hq heq.symm
        rcases ih (s := s.write index q) hrest with ⟨w, hw, hfamily, hmem⟩
        rw [lastRead_write, if_neg hq] at hmem
        exact ⟨w, List.mem_cons_of_mem q hw, hfamily, hmem⟩

/-- A result lives up to the last read, or another one has taken it and it ends at once. -/
theorem mem_foldl_write_cases {defs : List (Register M)} {a e : Nat}
    (h : (r, ⟨a, e⟩) ∈ (defs.foldl (write index) s).writes) :
    (r, ⟨a, e⟩) ∈ s.writes ∨
      r ∈ defs ∧ a = index ∧ (e = index ∨ e = (s.lastRead? r).getD index) := by
  induction defs generalizing s with
  | nil => exact Or.inl h
  | cons q defs ih =>
      rcases ih h with hold | ⟨hr, ha, he⟩
      · rcases List.mem_cons.mp hold with heq | hold
        · simp only [Prod.mk.injEq, Span.mk.injEq] at heq
          rcases heq with ⟨rfl, ha, he⟩
          exact Or.inr ⟨List.mem_cons_self, ha, Or.inr he⟩
        · exact Or.inl hold
      · refine Or.inr ⟨List.mem_cons_of_mem q hr, ha, ?_⟩
        rw [lastRead_write] at he
        by_cases hq : q.family = r.family
        · rw [if_pos hq] at he
          exact Or.inl (he.elim id id)
        · rw [if_neg hq] at he
          exact he

end Scan

namespace Instr

variable {i : Instr M}

theorem reads_families : (i.mapRegs Register.family).reads = i.reads.map Register.family := by
  unfold reads
  rw [uses_mapRegs, List.filterMap_map, List.map_filterMap]
  refine List.filterMap_congr fun u _ => ?_
  cases u <;> rfl

end Instr

theorem startsAt_scanCode (index : Nat) (code : List (Instr M)) :
    (scanCode index code).StartsAt index := by
  induction code generalizing index with
  | nil => exact fun entry hentry => absurd hentry (by simp [scanCode, Scan.empty])
  | cons i rest ih => exact ((ih (index + 1)).instr i).2

/-- The last pending read of a family is the last one of its name before the next write. -/
theorem lastRead_scanCode (r : Register M) (index : Nat) (code : List (Instr M)) :
    (scanCode index code).lastRead? r =
      lastSeen r.family index (code.map (Instr.mapRegs Register.family)) := by
  induction code generalizing index with
  | nil => rfl
  | cons i rest ih =>
      have hstarts := ((startsAt_scanCode (index + 1) rest).instr i).1
      simp only [scanCode, Scan.instr, List.map_cons, lastSeen]
      rw [Scan.lastRead_foldl_read hstarts, Scan.lastRead_foldl_write, ih, Instr.reads_families]
      have hdefs : (i.mapRegs Register.family).defs = i.defs.map Register.family := rfl
      rw [hdefs]
      by_cases hd : r.family ∈ i.defs.map Register.family
      · rw [if_pos hd, if_pos hd, Option.none_or]
      · rw [if_neg hd, if_neg hd]

/-- The end of a value that is in the storage of `r` after instruction `k`, which has number
    `index + k`. -/
def storageEnd (r : Register M) (index : Nat) (code : List (Instr M)) (k : Nat) : Nat :=
  (lastSeen r.family (index + k + 1)
    ((code.drop (k + 1)).map (Instr.mapRegs Register.family))).getD (index + k)

theorem storageEnd_succ (r : Register M) (index : Nat) (i : Instr M) (rest : List (Instr M))
    (k : Nat) : storageEnd r index (i :: rest) (k + 1) = storageEnd r (index + 1) rest k := by
  unfold storageEnd
  rw [List.drop_succ_cons, show index + (k + 1) = index + 1 + k by omega]

/-- Every write of a storage is recorded with the end of its value. -/
theorem exists_write_scanCode (index : Nat) {r : Register M} {k : Nat} {code : List (Instr M)}
    {i : Instr M} (hk : code[k]? = some i) (hr : r ∈ i.defs) :
    ∃ q ∈ i.defs, q.family = r.family ∧
      (q, ⟨index + k, storageEnd r index code k⟩) ∈ (scanCode index code).writes := by
  induction code generalizing index k with
  | nil => exact absurd hk (by simp)
  | cons j rest ih =>
      rw [writes_scanCode_cons]
      cases k with
      | zero =>
          obtain rfl : j = i := by simpa using hk
          have hend : storageEnd r index (j :: rest) 0 =
              ((scanCode (index + 1) rest).lastRead? r).getD index := by
            rw [lastRead_scanCode]
            rfl
          rw [hend]
          exact Scan.exists_mem_foldl_write (List.mem_map_of_mem hr)
      | succ k =>
          rcases ih (index + 1) (k := k) (by simpa using hk) with ⟨q, hq, hfamily, hmem⟩
          refine ⟨q, hq, hfamily, Scan.writes_subset_foldl_write ?_⟩
          rw [storageEnd_succ, show index + (k + 1) = index + 1 + k by omega]
          exact hmem

/-- What is recorded is a write, with the end of its value or with none. -/
theorem write_scanCode_cases {r : Register M} {index a e : Nat} {code : List (Instr M)}
    (h : (r, ⟨a, e⟩) ∈ (scanCode index code).writes) :
    ∃ k i, a = index + k ∧ code[k]? = some i ∧ r ∈ i.defs ∧
      (e = a ∨ e = storageEnd r index code k) := by
  induction code generalizing index with
  | nil => exact absurd h (by simp [scanCode, Scan.empty])
  | cons j rest ih =>
      rw [writes_scanCode_cons] at h
      rcases Scan.mem_foldl_write_cases h with hold | ⟨hr, ha, he⟩
      · rcases ih hold with ⟨k, i, ha, hi, hr, he⟩
        rw [← storageEnd_succ r index j] at he
        exact ⟨k + 1, i, by omega, by simpa using hi, hr, he⟩
      · rw [lastRead_scanCode] at he
        refine ⟨0, j, by omega, rfl, hr, ?_⟩
        rw [ha]
        exact he

/-- The first element of a sorted list is one that none comes before. -/
theorem exists_head_ascending {α : Type} (lt : α → α → Bool) (irrefl : ∀ a, lt a a = false)
    (trans : ∀ a b c, lt a b = true → lt b c = true → lt a c = true) {l : List α} (hl : l ≠ []) :
    ∃ a ∈ l, (ascending lt l).head? = some a ∧ ∀ x ∈ l, lt x a = false := by
  induction l with
  | nil => exact absurd rfl hl
  | cons b l ih =>
      have hstep : ascending lt (b :: l) = insertAscending lt b (ascending lt l) := rfl
      rw [hstep]
      by_cases hnil : l = []
      · subst hnil
        refine ⟨b, List.mem_cons_self, rfl, fun x hx => ?_⟩
        rw [List.mem_singleton.mp hx]
        exact irrefl b
      · rcases ih hnil with ⟨a, ha, hhead, hleast⟩
        rcases List.head?_eq_some_iff.mp hhead with ⟨rest, hrest⟩
        rw [hrest, insertAscending]
        by_cases hba : lt b a = true
        · rw [if_pos hba]
          refine ⟨b, List.mem_cons_self, rfl, fun x hx => ?_⟩
          rcases List.mem_cons.mp hx with rfl | hx
          · exact irrefl x
          · rw [Bool.eq_false_iff]
            intro hxb
            have hxa := hleast x hx
            rw [trans x b a hxb hba] at hxa
            exact absurd hxa (by simp)
        · -- The head stays, whether the new element goes behind it or counts as it.
          have hkeep : (if lt a b = true then a :: insertAscending lt b rest
              else a :: rest).head? = some a := by
            split <;> rfl
          rw [if_neg hba]
          refine ⟨a, List.mem_cons_of_mem b ha, hkeep, fun x hx => ?_⟩
          rcases List.mem_cons.mp hx with rfl | hx
          · exact Bool.eq_false_iff.mpr hba
          · exact hleast x hx

namespace Machine

variable {p q r : M.Reg}

/-- `q` is `p`, or one gets there from `p` by going to the next wider register. -/
def Ancestor (p q : M.Reg) : Prop :=
  Relation.ReflTransGen (fun r s : M.Reg => parent r = some s) p q

/-- A register that is part of a wider one is directly part of one that is no wider. -/
theorem exists_parent (hqp : contains q p = true) (hne : q ≠ p) :
    ∃ r, parent p = some r ∧ M.width p < M.width r ∧ contains q r = true := by
  rw [contains_iff] at hqp
  have hwidth : M.width p ≠ M.width q := fun h => hne (M.window_inj hqp.1 h.symm)
  have hq : q ∈ M.registers.filter fun w => aliases p w && below (M.width p) (M.width w) := by
    refine List.mem_filter.mpr ⟨M.mem_registers q, ?_⟩
    rw [Bool.and_eq_true, aliases_iff, below, decide_eq_true_iff]
    exact ⟨hqp.1.symm, by omega⟩
  have htrans : ∀ a b c : M.Reg, below (M.width a) (M.width b) = true →
      below (M.width b) (M.width c) = true → below (M.width a) (M.width c) = true := by
    intro a b c hab hbc
    rw [below, decide_eq_true_iff] at hab hbc ⊢
    omega
  rcases exists_head_ascending (fun w w' : M.Reg => below (M.width w) (M.width w'))
    (fun w => by simp [below]) htrans (List.ne_nil_of_mem hq) with ⟨r, hr, hhead, hleast⟩
  have hr' := (List.mem_filter.mp hr).2
  rw [Bool.and_eq_true, aliases_iff, below, decide_eq_true_iff] at hr'
  have hle := hleast q hq
  rw [below, decide_eq_false_iff_not] at hle
  exact ⟨r, hhead, hr'.2, contains_iff.mpr ⟨hqp.1.trans hr'.1, by omega⟩⟩

theorem ancestor_of_contains (h : contains q p = true) : Ancestor p q := by
  -- Every parent is wider, and none is wider than `q`.
  induction hn : M.width q - M.width p using Nat.strongRecOn generalizing p with
  | ind n ih =>
      by_cases hqp : q = p
      · rw [hqp]
        exact .refl
      · rcases exists_parent h hqp with ⟨r, hparent, hwider, hqr⟩
        have hle := (contains_iff.mp hqr).2
        exact .head hparent (ih (M.width q - M.width r) (by omega) hqr rfl)

end Machine

namespace Block

variable {b : Block M} {p : M.Reg} {k j : Nat}

/-- Instruction `j` reads what the storage of `p` holds before instruction `k`. -/
def ReadsStorage (b : Block M) (p : M.Reg) (k j : Nat) : Prop :=
  k ≤ j ∧ (∃ i q, b.code[j]? = some i ∧ .physical q ∈ i.reads ∧ Machine.aliases q p = true) ∧
    ∀ m i q, k ≤ m → m < j → b.code[m]? = some i → .physical q ∈ i.defs →
      Machine.aliases q p = false

/-- Some instruction reads `p`, and none before it writes a register that aliases `p`. -/
def ExposesStorage (b : Block M) (p : M.Reg) : Prop :=
  ∃ (j : Nat) (i : Instr M), b.code[j]? = some i ∧ .physical p ∈ i.reads ∧
    ∀ m i' q, m < j → b.code[m]? = some i' → .physical q ∈ i'.defs → Machine.aliases q p = false

/-- What instruction `k` leaves in the storage of `p` is read last by instruction `stop`; if
    nothing reads it, `stop` is `k`. -/
def StorageEnds (b : Block M) (p : M.Reg) (k stop : Nat) : Prop :=
  (b.ReadsStorage p (k + 1) stop ∧ ∀ j, b.ReadsStorage p (k + 1) j → j ≤ stop) ∨
    ((∀ j, ¬ b.ReadsStorage p (k + 1) j) ∧ stop = k)

/-- Reads of a storage are reads of its name. -/
theorem readsStorage_iff : b.ReadsStorage p k j ↔
    (b.mapRegs Register.family).ReadsFrom (.physical (M.family p)) k j := by
  have hcode : ∀ m, (b.mapRegs Register.family).code[m]? =
      b.code[m]?.map (Instr.mapRegs Register.family) := fun m => List.getElem?_map
  have hdefs : ∀ i : Instr M, .physical (M.family p) ∈ (i.mapRegs Register.family).defs ↔
      ∃ q, .physical q ∈ i.defs ∧ Machine.aliases q p = true := fun i => Register.mem_map_family
  have hreads : ∀ i : Instr M, .physical (M.family p) ∈ (i.mapRegs Register.family).reads ↔
      ∃ q, .physical q ∈ i.reads ∧ Machine.aliases q p = true := by
    intro i
    rw [Instr.reads_families]
    exact Register.mem_map_family
  unfold ReadsStorage ReadsFrom
  refine and_congr_right fun _ => and_congr ?_ ?_
  · constructor
    · rintro ⟨i, q, hi, hq⟩
      exact ⟨_, by rw [hcode, hi]; rfl, (hreads i).mpr ⟨q, hq⟩⟩
    · rintro ⟨i', hi', hread⟩
      rw [hcode, Option.map_eq_some_iff] at hi'
      rcases hi' with ⟨i, hi, rfl⟩
      rcases (hreads i).mp hread with ⟨q, hq⟩
      exact ⟨i, q, hi, hq⟩
  · constructor
    · intro h m i' hkm hmj hi' hdef
      rw [hcode, Option.map_eq_some_iff] at hi'
      rcases hi' with ⟨i, hi, rfl⟩
      rcases (hdefs i).mp hdef with ⟨q, hq, halias⟩
      rw [h m i q hkm hmj hi hq] at halias
      exact absurd halias (by simp)
    · intro h m i q hkm hmj hi hq
      rw [Bool.eq_false_iff]
      intro halias
      exact h m _ hkm hmj (by rw [hcode, hi]; rfl) ((hdefs i).mpr ⟨q, hq, halias⟩)

/-- The value ends where the scan says. -/
theorem storageEnds_iff {stop : Nat} :
    b.StorageEnds p k stop ↔ stop = storageEnd (.physical p) 0 b.code k := by
  have hstops : (b.mapRegs Register.family).Stops (.physical (M.family p)) False (k + 1) k stop ↔
      stop = (lastSeen (.physical (M.family p)) (k + 1)
        ((b.mapRegs Register.family).code.drop (k + 1))).getD k := stops_iff_of_local False.elim
  have hend : storageEnd (.physical p) 0 b.code k = (lastSeen (.physical (M.family p)) (k + 1)
      ((b.mapRegs Register.family).code.drop (k + 1))).getD k := by
    rw [storageEnd, Nat.zero_add, List.map_drop]
    rfl
  rw [hend, ← hstops]
  unfold StorageEnds
  simp only [readsStorage_iff]
  constructor
  · rintro (⟨hread, hlast⟩ | ⟨hnone, rfl⟩)
    · exact .read False.elim hread hlast
    · exact .unread False.elim hnone
  · intro h
    cases h with
    | last hout _ => exact hout.elim
    | read _ hread hlast => exact Or.inl ⟨hread, hlast⟩
    | unread _ hnone => exact Or.inr ⟨hnone, rfl⟩

/-- Inputs are virtual, so they change nothing about a storage. -/
theorem lastRead_scan :
    b.scan.lastRead? (.physical p) = (scanCode 0 b.code).lastRead? (.physical p) := by
  unfold scan
  rw [Scan.lastRead_foldl_write, if_neg]
  rw [Register.family, Register.mem_map_family]
  rintro ⟨q, hq, _⟩
  exact absurd hq (by simp)

theorem mem_writes_scan {span : Span} : (.physical p, span) ∈ b.scan.writes ↔
    (.physical p, span) ∈ (scanCode 0 b.code).writes := by
  constructor
  · intro h
    obtain ⟨a, e⟩ := span
    rcases Scan.mem_foldl_write_cases h with hold | ⟨hinput, _⟩
    · exact hold
    · exact absurd hinput (by simp)
  · exact fun h => Scan.writes_subset_foldl_write h

/-- A physical register is pending at the top of the block if the block exposes storage. -/
theorem exists_pending_physical_iff :
    (∃ entry ∈ b.scan.pending, entry.1.physical? ≠ none) ↔ ∃ p, b.ExposesStorage p := by
  have hlast : ∀ p, b.scan.lastRead? (.physical p) = none ↔ ∀ j, ¬ b.ReadsStorage p 0 j := by
    intro p
    rw [lastRead_scan, lastRead_scanCode, lastSeen_eq_none_iff, Needs, not_exists]
    refine forall_congr' fun j => not_congr ?_
    rw [readsStorage_iff, readsFrom_iff]
    exact (and_iff_right (Nat.zero_le j)).symm
  constructor
  · rintro ⟨⟨r, e⟩, hentry, hphysical⟩
    cases r with
    | virtual v => exact absurd rfl hphysical
    | physical p =>
        have hsome : ¬ b.scan.lastRead? (.physical p) = none := fun hnone =>
          Scan.lastRead_eq_none_iff.mp hnone _ hentry rfl
        rw [hlast, not_forall] at hsome
        rcases hsome with ⟨j, hj⟩
        rcases Classical.not_not.mp hj with ⟨_, ⟨i, q, hi, hq, halias⟩, hclean⟩
        -- The register that is read may be another one of the family.
        refine ⟨q, j, i, hi, hq, fun m i' q' hm hi' hq' => ?_⟩
        have hapart := hclean m i' q' (Nat.zero_le m) hm hi' hq'
        rw [Bool.eq_false_iff] at hapart ⊢
        exact fun h => hapart (Machine.aliases_trans h halias)
  · rintro ⟨p, j, i, hi, hp, hclean⟩
    have hread : b.ReadsStorage p 0 j :=
      ⟨Nat.zero_le j, ⟨i, p, hi, hp, Machine.aliases_refl p⟩,
        fun m i' q _ hm hi' hq => hclean m i' q hm hi' hq⟩
    by_contra hnone
    push Not at hnone
    refine (hlast p).mp (Scan.lastRead_eq_none_iff.mpr fun entry hentry hfamily => ?_) j hread
    rcases Register.family_physical_eq_iff.mp hfamily with ⟨q, hq, _⟩
    have := hnone entry hentry
    rw [hq] at this
    exact absurd this (by simp [Register.physical?])

end Block

/-- The analysis refuses a function if a physical register is pending at the top of a block. -/
theorem physicalLiveIn_eq_none_iff {scans : List (Scan M)} : physicalLiveIn? scans = none ↔
    ∀ s ∈ scans, ∀ entry ∈ s.pending, entry.1.physical? = none := by
  have hscan : ∀ (s : Scan M) (b : Nat), (((ascending Machine.regBelow
      (s.pending.filterMap fun entry => entry.1.physical?)).head?).map fun p =>
        Unsupported.physicalLiveIn (M.regName p) b) = none ↔
      ∀ entry ∈ s.pending, entry.1.physical? = none := by
    intro s b
    rw [Option.map_eq_none_iff, List.head?_eq_none_iff, List.eq_nil_iff_forall_not_mem]
    simp only [mem_ascending Machine.regBelow_apart]
    rw [← List.eq_nil_iff_forall_not_mem, List.filterMap_eq_nil_iff]
  unfold physicalLiveIn?
  rw [findSome?_zipIdx_eq_none_iff]
  constructor
  · intro h s hs
    rcases List.getElem?_of_mem hs with ⟨b, hb⟩
    exact (hscan s b).mp (h b s hb)
  · exact fun h b s hb => (hscan s b).mpr (h s (List.mem_of_getElem? hb))

theorem physicalLiveIn_eq_some {scans : List (Scan M)} {cause : Unsupported}
    (h : physicalLiveIn? scans = some cause) : ∃ name b, cause = .physicalLiveIn name b := by
  rcases List.exists_of_findSome?_eq_some h with ⟨⟨s, b⟩, _, hcause⟩
  rcases Option.map_eq_some_iff.mp hcause with ⟨p, _, rfl⟩
  exact ⟨M.regName p, b, rfl⟩

namespace Function

variable {f : Function M} {l : Liveness M}

theorem mem_filings_scans_iff {p : M.Reg} {b a e : Nat} :
    (p, ⟨b, a, e⟩) ∈ filings (f.blocks.map Block.scan) ↔
      ∃ block, f.blocks[b]? = some block ∧ (.physical p, ⟨a, e⟩) ∈ block.scan.writes := by
  rw [mem_filings]
  constructor
  · rintro ⟨c, scan, ⟨a', e'⟩, hscan, hwrite, heq⟩
    cases heq
    rw [List.getElem?_map, Option.map_eq_some_iff] at hscan
    rcases hscan with ⟨block, hblock, rfl⟩
    exact ⟨block, hblock, hwrite⟩
  · rintro ⟨block, hblock, hwrite⟩
    exact ⟨b, block.scan, ⟨a, e⟩, by rw [List.getElem?_map, hblock]; rfl, hwrite, rfl⟩

section Analysed

variable (hl : f.liveness = .ok l)
include hl

theorem rangesOf_physical_eq (q : M.Reg) : l.rangesOf (.physical q) =
    ascending LiveRange.before ((ledgerOf (f.blocks.map Block.scan)).under q) := by
  rw [liveness_eq hl]
  simp only [Liveness.rangesOf, livenessOf, List.lookup_append, lookup_tracks_physical,
    Option.none_or, Ledger.lookup_entries, Ledger.under]
  cases (ledgerOf (f.blocks.map Block.scan)).lookup q <;> rfl

/-- The ranges under a physical register are those of the writes to its family, if the family
    is kept under it. -/
theorem mem_rangesOf_physical_iff {q : M.Reg} {b a e : Nat} :
    ⟨b, a, e⟩ ∈ l.rangesOf (.physical q) ↔ q ∈ (ledgerOf (f.blocks.map Block.scan)).keys ∧
      ∃ p block, f.blocks[b]? = some block ∧ (.physical p, ⟨a, e⟩) ∈ block.scan.writes ∧
        Machine.aliases p q = true := by
  rw [rangesOf_physical_eq hl, mem_ascending LiveRange.before_apart]
  refine ⟨fun hmem => ⟨Ledger.mem_keys_of_mem_under hmem, ?_⟩, fun ⟨hq, hmem⟩ => ?_⟩
  · have hq := Ledger.mem_keys_of_mem_under hmem
    rcases ((files_ledgerOf _).mem_under q hq _).mp hmem with ⟨p, hwrite, halias⟩
    rcases mem_filings_scans_iff.mp hwrite with ⟨block, hb, hwrite⟩
    exact ⟨p, block, hb, hwrite, halias⟩
  · rcases hmem with ⟨p, block, hb, hwrite, halias⟩
    exact ((files_ledgerOf _).mem_under q hq _).mpr
      ⟨p, mem_filings_scans_iff.mpr ⟨block, hb, hwrite⟩, halias⟩

theorem mem_keys_of_rangesOf {q : M.Reg} (hq : l.rangesOf (.physical q) ≠ []) :
    q ∈ (ledgerOf (f.blocks.map Block.scan)).keys := by
  rcases List.exists_mem_of_ne_nil _ hq with ⟨⟨b, a, e⟩, hrange⟩
  exact ((mem_rangesOf_physical_iff hl).mp hrange).1

/-- The ranges that aliasing registers share are kept under one of them. -/
theorem eq_of_aliases {p q : M.Reg} (hp : l.rangesOf (.physical p) ≠ [])
    (hq : l.rangesOf (.physical q) ≠ []) (h : Machine.aliases p q = true) : p = q :=
  (files_ledgerOf _).apart p (mem_keys_of_rangesOf hl hp) q (mem_keys_of_rangesOf hl hq) h

omit hl in
theorem mem_map_filings {b : Nat} {block : Block M} (hb : f.blocks[b]? = some block) {p : M.Reg}
    {span : Span} (h : (.physical p, span) ∈ block.scan.writes) :
    p ∈ (filings (f.blocks.map Block.scan)).map Prod.fst :=
  List.mem_map_of_mem (f := Prod.fst) (mem_filings_scans_iff.mpr ⟨block, hb, h⟩)

/-- A write has a range up to the last read of the storage, under the widest register. -/
theorem exists_range_of_write {b : Nat} {block : Block M} (hb : f.blocks[b]? = some block)
    {k : Nat} {i : Instr M} (hk : block.code[k]? = some i) {p : M.Reg} (hp : .physical p ∈ i.defs) :
    ∃ q stop, Machine.contains q p = true ∧ block.StorageEnds p k stop ∧
      ⟨b, k, stop⟩ ∈ l.rangesOf (.physical q) := by
  rcases exists_write_scanCode 0 hk hp with ⟨r, hr, hfamily, hwrite⟩
  rcases Register.family_physical_eq_iff.mp hfamily with ⟨p', rfl, halias⟩
  rw [Nat.zero_add] at hwrite
  -- The range is that of the first result of the family, `p'`, but `p` is written as well.
  have hfiled : p ∈ (filings (f.blocks.map Block.scan)).map Prod.fst := by
    have hmem := (mem_writes_scanCode 0 block.code).mpr ⟨i, List.mem_of_getElem? hk, hp⟩
    rcases List.mem_map.mp hmem with ⟨⟨r, span⟩, hentry, rfl⟩
    exact mem_map_filings hb (Block.mem_writes_scan.mpr hentry)
  rcases (files_ledgerOf _).covered p hfiled with ⟨q, hq, hcontains⟩
  refine ⟨q, storageEnd (.physical p) 0 block.code k, hcontains, Block.storageEnds_iff.mpr rfl, ?_⟩
  refine (mem_rangesOf_physical_iff hl).mpr
    ⟨hq, p', block, hb, Block.mem_writes_scan.mpr hwrite, ?_⟩
  exact Machine.aliases_trans halias
    (Machine.aliases_symm (Machine.aliases_of_contains hcontains))

/-- Ranges start at writes. -/
theorem exists_write_of_range {q : M.Reg} {b a e : Nat}
    (h : ⟨b, a, e⟩ ∈ l.rangesOf (.physical q)) :
    ∃ block i p, f.blocks[b]? = some block ∧ block.code[a]? = some i ∧ .physical p ∈ i.defs ∧
      Machine.contains q p = true ∧ (e = a ∨ block.StorageEnds p a e) := by
  rcases (mem_rangesOf_physical_iff hl).mp h with ⟨hq, p, block, hb, hwrite, halias⟩
  have hcontains := (files_ledgerOf _).contains_of_aliases (mem_map_filings hb hwrite) hq
    (Machine.aliases_symm halias)
  rcases write_scanCode_cases (Block.mem_writes_scan.mp hwrite) with ⟨k, i, ha, hk, hp, he⟩
  obtain rfl : a = k := by omega
  exact ⟨block, i, p, hb, hk, hp, hcontains, he.imp_right Block.storageEnds_iff.mpr⟩

end Analysed

/-- The ranges of physical registers are those of the storages that the function writes. -/
structure TracksFamilies (f : Function M) (l : Liveness M) : Prop where
  /-- No two registers of a family have ranges. -/
  apart : ∀ p q, l.rangesOf (.physical p) ≠ [] → l.rangesOf (.physical q) ≠ [] →
    Machine.aliases p q = true → p = q
  /-- One register of the family of a written register has ranges. It is that register or an
      ancestor, and one of its ranges goes from the write to the last read of the storage. -/
  written : ∀ b block k i p, f.blocks[b]? = some block → block.code[k]? = some i →
    .physical p ∈ i.defs → ∃ q, Machine.Ancestor p q ∧
      (∀ q', l.rangesOf (.physical q') ≠ [] ∧ Machine.aliases q' p = true ↔ q' = q) ∧
      ∃ stop, block.StorageEnds p k stop ∧ ⟨b, k, stop⟩ ∈ l.rangesOf (.physical q)
  /-- Every range starts at such a write. It ends at once if another result of the instruction
      took the storage first. -/
  only : ∀ q b a e, ⟨b, a, e⟩ ∈ l.rangesOf (.physical q) →
    ∃ block i p, f.blocks[b]? = some block ∧ block.code[a]? = some i ∧ .physical p ∈ i.defs ∧
      Machine.Ancestor p q ∧ (e = a ∨ block.StorageEnds p a e)

theorem tracksFamilies (hl : f.liveness = .ok l) : f.TracksFamilies l where
  apart _ _ := eq_of_aliases hl
  written b block k i p hb hk hp := by
    rcases exists_range_of_write hl hb hk hp with ⟨q, stop, hcontains, hends, hrange⟩
    have hq : l.rangesOf (.physical q) ≠ [] := List.ne_nil_of_mem hrange
    have halias := Machine.aliases_of_contains hcontains
    refine ⟨q, Machine.ancestor_of_contains hcontains, fun q' => ⟨?_, ?_⟩, stop, hends, hrange⟩
    · rintro ⟨hq', halias'⟩
      exact eq_of_aliases hl hq' hq (Machine.aliases_trans halias' (Machine.aliases_symm halias))
    · rintro rfl
      exact ⟨hq, halias⟩
  only q b a e hrange := by
    rcases exists_write_of_range hl hrange with ⟨block, i, p, hb, ha, hp, hcontains, hends⟩
    exact ⟨block, i, p, hb, ha, hp, Machine.ancestor_of_contains hcontains, hends⟩

/-- The analysis fails on a function that exposes the storage of a physical register. On any
    other it gives a result, which tracks families. -/
theorem liveness_tracks_families (f : Function M) :
    ((∃ block ∈ f.blocks, ∃ p, block.ExposesStorage p) ↔
        ∃ name b, f.liveness = .error (.physicalLiveIn name b)) ∧
      ((¬ ∃ block ∈ f.blocks, ∃ p, block.ExposesStorage p) ↔
        ∃ l, f.liveness = .ok l ∧ f.TracksFamilies l) := by
  have hnone : physicalLiveIn? (f.blocks.map Block.scan) = none ↔
      ¬ ∃ block ∈ f.blocks, ∃ p, block.ExposesStorage p := by
    rw [physicalLiveIn_eq_none_iff]
    simp only [← Block.exists_pending_physical_iff, List.forall_mem_map]
    push Not
    rfl
  cases hphys : physicalLiveIn? (f.blocks.map Block.scan) with
  | none =>
      have hl : f.liveness = .ok (f.livenessOf (f.blocks.map Block.scan)) := by
        simp only [liveness, hphys]
      have hclean := hnone.mp hphys
      refine ⟨iff_of_false hclean ?_, iff_of_true hclean ⟨_, hl, tracksFamilies hl⟩⟩
      rintro ⟨name, b, herror⟩
      rw [hl] at herror
      exact absurd herror (by simp)
  | some cause =>
      rcases physicalLiveIn_eq_some hphys with ⟨name, b, rfl⟩
      have herror : f.liveness = .error (.physicalLiveIn name b) := by
        simp only [liveness, hphys]
      have hexposes : ∃ block ∈ f.blocks, ∃ p, block.ExposesStorage p := by
        by_contra hclean
        rw [hnone.mpr hclean] at hphys
        exact absurd hphys (by simp)
      refine ⟨iff_of_true hexposes ⟨name, b, herror⟩, iff_of_false (not_not_intro hexposes) ?_⟩
      rintro ⟨l, hl, _⟩
      rw [herror] at hl
      exact absurd hl (by simp)

/-- Three registers of a family are written, the narrowest in the first block and the widest
    after it. A part of them is read at the end. -/
def widening : Function x86 :=
  ⟨"widening", [
    ⟨[], [⟨.common .copy, [.physical X86Reg.al], [.imm 1]⟩, ⟨.common .jmp, [], [.block 1]⟩]⟩,
    ⟨[], [⟨.common .copy, [.physical X86Reg.eax], [.imm 2]⟩,
      ⟨.common .copy, [.physical X86Reg.ax], [.imm 3]⟩,
      ⟨.common .copy, [.virtual ⟨0, X86Class.gr8⟩], [.reg (.physical X86Reg.al)]⟩,
      ⟨.common .ret, [], [.ofVReg ⟨0, X86Class.gr8⟩]⟩]⟩]⟩

/-- The list of the family moves twice and ends up under the widest register. -/
theorem widening_tracked : ∃ l, widening.liveness = .ok l ∧ widening.TracksFamilies l ∧
    l.rangesOf (.physical X86Reg.eax) = [⟨0, 0, 0⟩, ⟨1, 0, 0⟩, ⟨1, 1, 2⟩] ∧
      l.rangesOf (.physical X86Reg.ax) = [] ∧ l.rangesOf (.physical X86Reg.al) = [] := by
  have hok : widening.liveness = .ok (widening.livenessOf (widening.blocks.map Block.scan)) := rfl
  rcases liveness_tracks_families widening with ⟨hfails, hsucceeds⟩
  have hclean : ¬ ∃ block ∈ widening.blocks, ∃ p, block.ExposesStorage p := by
    intro hexposes
    rcases hfails.mp hexposes with ⟨name, b, herror⟩
    rw [hok] at herror
    exact absurd herror (by simp)
  rcases hsucceeds.mp hclean with ⟨l, hl, htracks⟩
  obtain rfl := liveness_eq hl
  exact ⟨_, hl, htracks, by decide +kernel, by decide +kernel, by decide +kernel⟩

end Function

end RegisterColoring
