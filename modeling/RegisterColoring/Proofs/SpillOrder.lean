import Mathlib.Data.List.Induction
import Mathlib.Data.List.Sort
import RegisterColoring.Spilling

/-!
# Candidates for Spilling

The search for the register to spill sorts the registers and keeps the first of the highest
cost. What it finds can be said without an order of the search: the candidate that is better
than all others, by its cost and then by its register.

Going through the registers in order settles the ties. A register that is taken later costs
strictly more than those before, and one that costs the same and comes later is not lower.

## Main definitions

* `Candidate.better`: The comparison of candidates.
* `Candidate.best?`: The best of a list, in whatever order it is.
* `Candidate.IsBest`: A candidate that no other is better than.
* `Candidate.ofCount`: What a register costs by the count of its node.
* `spillCandidates`: The candidates of the blamed nodes, as the blames list them.

## Theorems

* `pairwise_inOrder`, `mem_inOrder`: Sorting puts a list in order and keeps its elements.
* `Candidate.IsBest.unique`: A list has one best candidate.
* `Candidate.isBest_of_best`: The search finds it.
* `Candidate.best_congr`: The order of the list does not count.
* `dearest_eq_best`: In a list that is in order, the first of the highest cost is the best.
* `selectSpill_eq`: The register to spill is that of the best candidate.
-/

namespace RegisterColoring

variable {M : Machine}

section InOrder

variable {α : Type} {lt : α → α → Bool}

theorem inOrder_eq_insertionSort (lt : α → α → Bool) (l : List α) :
    inOrder lt l = l.insertionSort fun a b => lt b a = false := by
  have hinsert : ∀ (a : α) (l : List α),
      insertInOrder lt a l = l.orderedInsert (fun a b => lt b a = false) a := by
    intro a l
    induction l with
    | nil => rfl
    | cons b l ih =>
        rw [insertInOrder, List.orderedInsert_cons, ih]
        cases lt b a <;> rfl
  unfold inOrder List.insertionSort
  exact congrArg (List.foldr · [] l) (funext fun a => funext fun l => hinsert a l)

theorem mem_inOrder {l : List α} {a : α} : a ∈ inOrder lt l ↔ a ∈ l := by
  rw [inOrder_eq_insertionSort, List.mem_insertionSort]

theorem pairwise_inOrder (trans : ∀ a b c, lt a b = true → lt b c = true → lt a c = true)
    (apart : ∀ a b, lt a b = false → lt b a = false → a = b) (irrefl : ∀ a, lt a a = false)
    (l : List α) : (inOrder lt l).Pairwise fun a b => lt b a = false := by
  have htotal : Std.Total fun a b => lt b a = false := by
    refine ⟨fun a b => ?_⟩
    by_contra hboth
    push Not at hboth
    have hloop := trans a b a (by simpa using hboth.2) (by simpa using hboth.1)
    rw [irrefl] at hloop
    exact absurd hloop (by simp)
  have htrans : IsTrans α fun a b => lt b a = false := by
    refine ⟨fun a b c hba hcb => ?_⟩
    by_contra hca
    rw [Bool.not_eq_false] at hca
    -- What is below `a` and not below `b` would leave `b` below `a` or the same.
    cases hbc : lt b c with
    | false =>
        rw [apart b c hbc hcb, hca] at hba
        exact absurd hba (by simp)
    | true =>
        rw [trans b c a hbc hca] at hba
        exact absurd hba (by simp)
  rw [inOrder_eq_insertionSort]
  exact List.pairwise_insertionSort _ l

end InOrder

namespace Candidate

/-- Higher costs are better; of equal ones, the lower register. -/
def better (a b : Candidate M) : Bool :=
  below b.cost a.cost || (decide (a.cost = b.cost) && a.reg.before b.reg)

/-- The best of a list. -/
def best? (l : List (Candidate M)) : Option (Candidate M) :=
  l.foldl (fun found a =>
    match found with
    | none => some a
    | some b => if a.better b then some a else some b) none

variable {a b c : Candidate M}

theorem better_eq_true :
    a.better b = true ↔ b.cost < a.cost ∨ a.cost = b.cost ∧ a.reg.before b.reg = true := by
  simp only [better, below, Bool.or_eq_true, Bool.and_eq_true, decide_eq_true_eq]

theorem better_irrefl (a : Candidate M) : a.better a = false := by
  rw [← Bool.not_eq_true, better_eq_true, VReg.before_irrefl]
  simp

theorem better_trans (hab : a.better b = true) (hbc : b.better c = true) : a.better c = true := by
  rw [better_eq_true] at *
  rcases hab with hab | ⟨hab, hreg⟩
  · refine Or.inl ?_
    rcases hbc with hbc | ⟨hbc, _⟩
    · omega
    · omega
  · rcases hbc with hbc | ⟨hbc, hreg'⟩
    · exact Or.inl (by omega)
    · exact Or.inr ⟨by omega, VReg.before_trans _ _ _ hreg hreg'⟩

/-- What is not better costs less, or the same and is not lower. -/
theorem le_of_not_better (h : b.better a = false) :
    b.cost ≤ a.cost ∧ (b.cost = a.cost → b.reg = a.reg ∨ a.reg.before b.reg = true) := by
  rw [← Bool.not_eq_true, better_eq_true, not_or] at h
  refine ⟨by omega, fun hcost => ?_⟩
  have hlower : b.reg.before a.reg = false := by
    rw [← Bool.not_eq_true]
    exact fun hbefore => h.2 ⟨hcost, hbefore⟩
  by_cases hbefore : a.reg.before b.reg = true
  · exact Or.inr hbefore
  · exact Or.inl (VReg.before_apart _ _ hlower (by simpa using hbefore))

theorem best?_concat (l : List (Candidate M)) (c : Candidate M) :
    best? (l ++ [c]) = match best? l with
      | none => some c
      | some a => if c.better a then some c else some a := by
  unfold best?
  rw [List.foldl_append]
  rfl

theorem best_eq_none_iff {l : List (Candidate M)} : best? l = none ↔ l = [] := by
  induction l using List.reverseRecOn with
  | nil => simp [best?]
  | append_singleton l c _ =>
      rw [best?_concat]
      cases best? l with
      | none => simp
      | some d => simp [apply_ite (· = none)]

/-- The candidate is in the list, and nothing there is better. -/
structure IsBest (l : List (Candidate M)) (a : Candidate M) : Prop where
  mem : a ∈ l
  not_better : ∀ b ∈ l, b.better a = false

theorem isBest_of_best {l : List (Candidate M)} (h : best? l = some a) : IsBest l a := by
  -- On the list from its end, as the search has seen all but the last candidate before it.
  induction l using List.reverseRecOn generalizing a with
  | nil => exact absurd h (by simp [best?])
  | append_singleton l c ih =>
      rw [best?_concat] at h
      cases hbest : best? l with
      | none =>
          obtain rfl : c = a := by simpa [hbest] using h
          obtain rfl := best_eq_none_iff.mp hbest
          exact ⟨by simp, by simp [better_irrefl]⟩
      | some d =>
          have hd := ih hbest
          simp only [hbest] at h
          by_cases hbetter : c.better d = true
          · rw [if_pos hbetter, Option.some.injEq] at h
            subst h
            refine ⟨by simp, fun b hb => ?_⟩
            rcases List.mem_append.mp hb with hb | hb
            · -- What beats the last candidate would have beaten the one before.
              rw [← Bool.not_eq_true]
              intro hbc
              have hbd := better_trans hbc hbetter
              rw [hd.not_better b hb] at hbd
              exact absurd hbd (by simp)
            · rw [List.mem_singleton.mp hb]
              exact better_irrefl c
          · rw [if_neg hbetter, Option.some.injEq] at h
            subst h
            refine ⟨List.mem_append_left _ hd.mem, fun b hb => ?_⟩
            rcases List.mem_append.mp hb with hb | hb
            · exact hd.not_better b hb
            · rw [List.mem_singleton.mp hb]
              simpa using hbetter

/-- A list has one best candidate. -/
theorem IsBest.unique {l : List (Candidate M)} (ha : IsBest l a) (hb : IsBest l b) : a = b := by
  obtain ⟨v, cost⟩ := a
  obtain ⟨w, cost'⟩ := b
  -- Neither is better, so the costs are the same, and then the registers are.
  have hab := le_of_not_better (ha.not_better _ hb.mem)
  have hba := le_of_not_better (hb.not_better _ ha.mem)
  simp only at hab hba
  obtain rfl : cost = cost' := by omega
  rcases hab.2 rfl with rfl | hvw
  · rfl
  · rcases hba.2 rfl with rfl | hwv
    · rfl
    · have hloop := VReg.before_trans v w v hvw hwv
      rw [VReg.before_irrefl] at hloop
      exact absurd hloop (by simp)

/-- What is found depends on the candidates alone and not on their order. -/
theorem best_congr {l l' : List (Candidate M)} (h : ∀ a, a ∈ l ↔ a ∈ l') : best? l = best? l' := by
  cases hbest : best? l with
  | none =>
      rw [best_eq_none_iff] at hbest
      subst hbest
      rw [eq_comm, best_eq_none_iff, List.eq_nil_iff_forall_not_mem]
      exact fun a ha => absurd ((h a).mpr ha) (by simp)
  | some a =>
      have ha := isBest_of_best hbest
      cases hbest' : best? l' with
      | none =>
          rw [best_eq_none_iff] at hbest'
          exact absurd ((h a).mp ha.mem) (by simp [hbest'])
      | some b =>
          have hb := isBest_of_best hbest'
          rw [ha.unique ⟨(h b).mpr hb.mem, fun c hc => hb.not_better c ((h c).mp hc)⟩]

/-- Register `v` as a candidate, if its node was blamed `count` times. -/
def ofCount (l : Liveness M) (entry : VReg M × Nat) : Candidate M :=
  ⟨entry.1, entry.2 * extent (l.rangesOf (.virtual entry.1))⟩

end Candidate

theorem dearest?_concat (l : Liveness M) (regs : List (VReg M × Nat)) (entry : VReg M × Nat) :
    dearest? l (regs ++ [entry]) = match dearest? l regs with
      | none => some (.ofCount l entry)
      | some best => if below best.cost (Candidate.ofCount l entry).cost
          then some (.ofCount l entry) else some best := by
  unfold dearest?
  rw [List.foldl_append]
  rfl

/-- If the registers are in order, the first of the highest cost is the best: one that is
    found earlier is not above those that follow. -/
theorem dearest_eq_best (l : Liveness M) {regs : List (VReg M × Nat)}
    (h : regs.Pairwise fun a b => b.1.before a.1 = false) :
    dearest? l regs = Candidate.best? (regs.map (.ofCount l)) := by
  induction regs using List.reverseRecOn with
  | nil => rfl
  | append_singleton regs entry ih =>
      rcases List.pairwise_append.mp h with ⟨hregs, _, hlast⟩
      rw [dearest?_concat, List.map_append, List.map_singleton, Candidate.best?_concat, ih hregs]
      cases hbest : Candidate.best? (regs.map (.ofCount l)) with
      | none => rfl
      | some best =>
          rcases List.mem_map.mp (Candidate.isBest_of_best hbest).mem with ⟨earlier, hmem, rfl⟩
          -- The last register is not below the best so far, so its cost alone decides.
          have hbefore : (Candidate.ofCount l entry).reg.before (Candidate.ofCount l earlier).reg =
              false := hlast earlier hmem entry (List.mem_singleton_self entry)
          simp only [Candidate.better, hbefore, Bool.and_false, Bool.or_false]

section SpillableBefore

variable {a b c : VReg M × Nat}

theorem spillableBefore_eq_true : spillableBefore a b = true ↔
    a.1.before b.1 = true ∨ a.1 = b.1 ∧ a.2 < b.2 := by
  simp only [spillableBefore, below, Bool.or_eq_true, Bool.and_eq_true, decide_eq_true_eq]

theorem spillableBefore_trans (a b c : VReg M × Nat) (hab : spillableBefore a b = true)
    (hbc : spillableBefore b c = true) : spillableBefore a c = true := by
  rw [spillableBefore_eq_true] at *
  rcases hab with hab | ⟨hab, hcount⟩
  · rcases hbc with hbc | ⟨hbc, _⟩
    · exact Or.inl (VReg.before_trans _ _ _ hab hbc)
    · exact Or.inl (hbc ▸ hab)
  · rcases hbc with hbc | ⟨hbc, hcount'⟩
    · exact Or.inl (hab ▸ hbc)
    · exact Or.inr ⟨hab.trans hbc, by omega⟩

theorem spillableBefore_irrefl (a : VReg M × Nat) : spillableBefore a a = false := by
  simp [spillableBefore, VReg.before_irrefl, below]

theorem spillableBefore_apart (a b : VReg M × Nat) (hab : spillableBefore a b = false)
    (hba : spillableBefore b a = false) : a = b := by
  rw [← Bool.not_eq_true, spillableBefore_eq_true, not_or, Bool.not_eq_true, not_and] at hab hba
  have hreg := VReg.before_apart _ _ hab.1 hba.1
  have hle := hab.2 hreg
  have hge := hba.2 hreg.symm
  exact Prod.ext hreg (by omega)

end SpillableBefore

/-- The virtual registers of the blamed nodes, without those whose ids are excluded. -/
def spillCandidates (g : Interference M) (l : Liveness M) (blames : List (Nat × Nat))
    (excluded : List Nat) : List (Candidate M) :=
  blames.flatMap fun (n, count) =>
    (((g.regs n).filterMap Register.virtual?).filter fun v => !excluded.contains v.id).map fun v =>
      ⟨v, count * extent (l.rangesOf (.virtual v))⟩

theorem dearest_spillable (g : Interference M) (l : Liveness M) (blames : List (Nat × Nat))
    (excluded : List Nat) : dearest? l (spillable g blames excluded) =
      Candidate.best? (spillCandidates g l blames excluded) := by
  have hsorted := pairwise_inOrder spillableBefore_trans spillableBefore_apart
    spillableBefore_irrefl (blames.flatMap fun (n, count) =>
      (((g.regs n).filterMap Register.virtual?).filter fun v => !excluded.contains v.id).map
        fun v => (v, count))
  have hregs : (spillable g blames excluded).Pairwise fun a b => b.1.before a.1 = false := by
    refine hsorted.imp fun {a b} hba => ?_
    rw [← Bool.not_eq_true, spillableBefore_eq_true, not_or, Bool.not_eq_true] at hba
    exact hba.1
  rw [dearest_eq_best l hregs]
  refine Candidate.best_congr fun a => ?_
  simp only [spillable, spillCandidates, List.mem_map, mem_inOrder, List.mem_flatMap, Prod.exists]
  constructor
  · rintro ⟨v, count, ⟨n, k, hn, w, hw, heq⟩, rfl⟩
    cases heq
    exact ⟨n, count, hn, v, hw, rfl⟩
  · rintro ⟨n, count, hn, v, hv, rfl⟩
    exact ⟨v, count, ⟨n, count, hn, v, hv, rfl⟩, rfl⟩

/-- The register to spill is that of the best candidate. -/
theorem selectSpill_eq (name : String) (g : Interference M) (l : Liveness M)
    (blames : List (Nat × Nat)) (excluded : List Nat) :
    selectSpill name g l blames excluded =
      match blames.find? fun entry => !below entry.1 g.size with
      | some (n, _) => .error (.fault (.missingNode n))
      | none =>
          match Candidate.best? (spillCandidates g l blames excluded) with
          | some found => .ok found.reg
          | none => .error (.exhausted name) := by
  rw [← dearest_spillable]
  rfl

end RegisterColoring
