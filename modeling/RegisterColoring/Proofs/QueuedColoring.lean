import Mathlib.Data.List.Nodup
import RegisterColoring.Coloring

/-!
# The Queue Finds the Most Constrained Node

Coloring takes the next node from a queue in which entries go out of date. Here it is
shown that the queue makes no difference: the node that it yields is the one with the
highest count among those that wait, and the lowest of them, as if all waiting nodes had
been looked through. Statements about coloring are proved for steps of that kind, which
need no queue.

Two facts carry this. The entry of every waiting node with its count of now is in the
queue, because a node is entered when it starts to wait and whenever its count changes.
And the queue is in order, so the first entry in it that is up to date comes before the
entries of all other waiting nodes.

## Main definitions

* `mostConstrained?`: The first of the entries with the highest count.
* `Greedy.step`: Color the most constrained node.
* `Queued.Covers`: The queue holds the entries of all waiting nodes, in order.
* `Interference.colorByCounts`: Color all nodes without a queue.

## Theorems

* `Greedy.steps_inv`: What all steps preserve.
* `Queued.Covers.head_eq`: The first entry that is up to date is the most constrained.
* `Queued.Covers.step`, `Queued.Covers.steps`: One step with the queue, and all of them.
* `Interference.color_eq`: Coloring does not depend on the queue.
-/

namespace RegisterColoring

variable {M : Machine}

/-- The first of the entries with the highest count. -/
def mostConstrained? : List (Nat × Nat) → Option (Nat × Nat)
  | [] => none
  | (n, count) :: rest =>
      match mostConstrained? rest with
      | some (m, most) => if count < most then some (m, most) else some (n, count)
      | none => some (n, count)

theorem precedes_iff {a b : Nat × Nat} :
    precedes a b = true ↔ b.2 < a.2 ∨ (a.2 = b.2 ∧ a.1 < b.1) := by
  simp [precedes, below]

theorem precedes_trans (a b c : Nat × Nat) (hab : precedes a b = true)
    (hbc : precedes b c = true) : precedes a c = true := by
  rw [precedes_iff] at hab hbc ⊢
  omega

theorem precedes_apart (a b : Nat × Nat) (hab : precedes a b = false)
    (hba : precedes b a = false) : a = b := by
  obtain ⟨n, count⟩ := a
  obtain ⟨m, count'⟩ := b
  rw [← Bool.not_eq_true, precedes_iff] at hab hba
  rw [Prod.mk.injEq]
  omega

/-- No two entries come before each other. -/
theorem precedes_asymm {a b : Nat × Nat} (hab : precedes a b = true) :
    precedes b a = false := by
  rw [← Bool.not_eq_true, precedes_iff]
  rw [precedes_iff] at hab
  omega

namespace Greedy

/-- Color the most constrained node, if one is waiting. -/
def step (g : Interference M) (s : Greedy M) : Greedy M :=
  match mostConstrained? s.waiting with
  | some (n, _) => s.process g n
  | none => s

/-- Take the given number of steps. -/
def steps (g : Interference M) : Nat → Greedy M → Greedy M
  | 0, s => s
  | k + 1, s => steps g k (s.step g)

/-- The waiting nodes after a step, whatever happened to their counts. -/
theorem mem_filter_waiting {s : Greedy M} {n m : Nat} :
    m ∈ (s.waiting.filter fun entry => decide (entry.1 ≠ n)).map Prod.fst ↔
      m ∈ s.waiting.map Prod.fst ∧ m ≠ n := by
  simp only [List.mem_map, List.mem_filter, decide_eq_true_eq]
  constructor
  · rintro ⟨entry, ⟨hentry, hne⟩, rfl⟩
    exact ⟨⟨entry, hentry, rfl⟩, hne⟩
  · rintro ⟨⟨entry, hentry, rfl⟩, hne⟩
    exact ⟨entry, ⟨hentry, hne⟩, rfl⟩

/-- Processing a node takes it off the waiting list and keeps the others there. -/
theorem map_fst_waiting_process (g : Interference M) (s : Greedy M) (n : Nat) :
    (s.process g n).waiting.map Prod.fst =
      (s.waiting.filter fun entry => decide (entry.1 ≠ n)).map Prod.fst := by
  unfold process
  cases hclass : g.class? n with
  | none => rfl
  | some c =>
      cases hfree : freeRegister? s.colors (g.neighbors n) c with
      | none => simp [hfree]
      | some p =>
          simp only [hfree, List.map_map]
          refine List.map_congr_left fun entry _ => ?_
          simp only [Function.comp_apply]
          split <;> rfl

/-- The most constrained entry is one of the list, if there is any. -/
theorem mem_of_mostConstrained {l : List (Nat × Nat)} {entry : Nat × Nat}
    (h : mostConstrained? l = some entry) : entry ∈ l := by
  induction l generalizing entry with
  | nil => exact absurd h (by simp [mostConstrained?])
  | cons head rest ih =>
      obtain ⟨n, count⟩ := head
      unfold mostConstrained? at h
      cases hrest : mostConstrained? rest with
      | none =>
          rw [hrest] at h
          simp only [Option.some.injEq] at h
          rw [← h]
          exact List.mem_cons_self
      | some best =>
          obtain ⟨m, most⟩ := best
          rw [hrest] at h
          simp only at h
          -- Either the best of the rest is better, or the head is it.
          split at h
          · rw [Option.some.injEq] at h
            exact List.mem_cons_of_mem _ (ih (h ▸ hrest))
          · rw [Option.some.injEq] at h
            rw [← h]
            exact List.mem_cons_self

theorem exists_mostConstrained {l : List (Nat × Nat)} (h : l ≠ []) :
    ∃ entry, mostConstrained? l = some entry := by
  cases l with
  | nil => exact absurd rfl h
  | cons head rest =>
      obtain ⟨n, count⟩ := head
      unfold mostConstrained?
      cases mostConstrained? rest with
      | none => exact ⟨_, rfl⟩
      | some best =>
          simp only
          split
          · exact ⟨_, rfl⟩
          · exact ⟨_, rfl⟩

theorem eq_nil_of_mostConstrained {l : List (Nat × Nat)} (h : mostConstrained? l = none) :
    l = [] := by
  by_contra hne
  rcases exists_mostConstrained hne with ⟨entry, hentry⟩
  rw [h] at hentry
  exact absurd hentry (by simp)

/-- In an ascending list of nodes, the most constrained entry comes before all others. -/
theorem precedes_of_mostConstrained {l : List (Nat × Nat)} {entry other : Nat × Nat}
    (hnodes : (l.map Prod.fst).Pairwise (· < ·)) (h : mostConstrained? l = some entry)
    (hother : other ∈ l) : other = entry ∨ precedes entry other = true := by
  induction l generalizing entry other with
  | nil => exact absurd hother (by simp)
  | cons head rest ih =>
      obtain ⟨n, count⟩ := head
      rw [List.map_cons, List.pairwise_cons] at hnodes
      unfold mostConstrained? at h
      cases hrest : mostConstrained? rest with
      | none =>
          rw [hrest, Option.some.injEq] at h
          rw [eq_nil_of_mostConstrained hrest, List.mem_singleton] at hother
          exact Or.inl (hother.trans h)
      | some best =>
          obtain ⟨m, most⟩ := best
          simp only [hrest] at h
          rcases List.mem_cons.mp hother with rfl | hmem
          · split at h
            · rename_i hless
              rw [Option.some.injEq] at h
              exact Or.inr (precedes_iff.mpr (Or.inl (h ▸ hless)))
            · exact Or.inl (Option.some.inj h)
          · have hbest := ih hnodes.2 hrest hmem
            split at h
            · rw [Option.some.injEq] at h
              exact h ▸ hbest
            · -- The head has the count of the best of the rest at least, and a lower number.
              rename_i hless
              rw [Option.some.injEq] at h
              subst h
              have hlower : n < other.1 := hnodes.1 _ (List.mem_map.mpr ⟨other, hmem, rfl⟩)
              refine Or.inr (precedes_iff.mpr ?_)
              rcases hbest with rfl | hprecedes
              · simp only at hless hlower ⊢
                omega
              · rw [precedes_iff] at hprecedes
                simp only at hless hprecedes ⊢
                omega

/-- What processing a waiting node preserves holds after all steps. -/
theorem steps_inv {g : Interference M} {I : Greedy M → Prop}
    (hprocess : ∀ s n, n ∈ s.waiting.map Prod.fst → I s → I (s.process g n)) (k : Nat)
    {s : Greedy M} (h : I s) : I (s.steps g k) := by
  induction k generalizing s with
  | zero => exact h
  | succ k ih =>
      refine ih ?_
      unfold step
      cases hmost : mostConstrained? s.waiting with
      | none => exact h
      | some entry =>
          exact hprocess s entry.1 (List.mem_map.mpr ⟨entry, mem_of_mostConstrained hmost, rfl⟩) h

end Greedy

namespace Queued

variable {g : Interference M} {s : Queued M}

/-- The queue is in order and holds the entries of all waiting nodes, which are listed in
    ascending order. -/
structure Covers (s : Queued M) : Prop where
  sorted : s.queue.Pairwise fun a b => precedes a b = true
  entered : ∀ entry ∈ s.waiting, entry ∈ s.queue
  nodes : (s.waiting.map Prod.fst).Pairwise (· < ·)

theorem mem_foldr_insert {changed queue : List (Nat × Nat)} {entry : Nat × Nat} :
    entry ∈ changed.foldr (insertAscending precedes) queue ↔ entry ∈ changed ∨ entry ∈ queue := by
  induction changed with
  | nil => simp
  | cons head changed ih =>
      rw [List.foldr_cons, mem_insertAscending fun b _ => precedes_apart _ b, ih, List.mem_cons,
        or_assoc]

theorem pairwise_foldr_insert (changed : List (Nat × Nat)) {queue : List (Nat × Nat)}
    (h : queue.Pairwise fun a b => precedes a b = true) :
    (changed.foldr (insertAscending precedes) queue).Pairwise fun a b => precedes a b = true := by
  induction changed with
  | nil => exact h
  | cons head changed ih => exact pairwise_insertAscending precedes_trans head ih

/-- The queue up to the first entry that is not out of date. -/
theorem split_queue (s : Queued M) :
    ∃ outdated, (∀ entry ∈ outdated, entry ∉ s.waiting) ∧
      s.queue = outdated ++ s.queue.dropWhile fun entry => !s.waiting.contains entry := by
  refine ⟨s.queue.takeWhile fun entry => !s.waiting.contains entry, fun entry hentry => ?_,
    List.takeWhile_append_dropWhile.symm⟩
  have hout := List.all_eq_true.mp List.all_takeWhile entry hentry
  simpa using hout

namespace Covers

/-- What the queue yields waits, and its other entries that are up to date come later. -/
theorem of_dropWhile (h : s.Covers) {entry : Nat × Nat} {rest : List (Nat × Nat)}
    (hqueue : (s.queue.dropWhile fun entry => !s.waiting.contains entry) = entry :: rest) :
    entry ∈ s.waiting ∧ (∀ other ∈ s.waiting, other = entry ∨ other ∈ rest) ∧
      (∀ other ∈ rest, precedes entry other = true) ∧
        rest.Pairwise fun a b => precedes a b = true := by
  rcases s.split_queue with ⟨outdated, hout, hsplit⟩
  rw [hqueue] at hsplit
  have hsorted := (List.pairwise_append.mp (hsplit ▸ h.sorted)).2.1
  refine ⟨?_, fun other hother => ?_, (List.pairwise_cons.mp hsorted).1,
    (List.pairwise_cons.mp hsorted).2⟩
  · have hhead := List.head?_dropWhile_not (fun entry => !s.waiting.contains entry) s.queue
    simp only [hqueue, List.head?_cons] at hhead
    simpa using hhead
  · -- Whatever waits is up to date, so its entry is not among those that are dropped.
    have hmem := h.entered other hother
    rw [hsplit] at hmem
    rcases List.mem_append.mp hmem with hmem | hmem
    · exact absurd hother (hout other hmem)
    · exact List.mem_cons.mp hmem

/-- The first entry that is up to date is the one with the highest count among all that
    wait, and the lowest node of those. -/
theorem head_eq (h : s.Covers) :
    (s.queue.dropWhile fun entry => !s.waiting.contains entry).head? =
      mostConstrained? s.waiting := by
  cases hqueue : s.queue.dropWhile fun entry => !s.waiting.contains entry with
  | nil =>
      -- Every entry is out of date, so nothing waits.
      have hnil : s.waiting = [] := by
        refine List.eq_nil_iff_forall_not_mem.mpr fun entry hentry => ?_
        rcases s.split_queue with ⟨outdated, hout, hsplit⟩
        rw [hqueue, List.append_nil] at hsplit
        exact hout entry (hsplit ▸ h.entered entry hentry) hentry
      rw [hnil]
      rfl
  | cons entry rest =>
      rcases h.of_dropWhile hqueue with ⟨hwaits, hall, hafter, _⟩
      rcases Greedy.exists_mostConstrained (List.ne_nil_of_mem hwaits) with ⟨best, hbest⟩
      rw [hbest, List.head?_cons, Option.some.injEq]
      rcases hall best (Greedy.mem_of_mostConstrained hbest) with heq | hrest
      · exact heq.symm
      · rcases Greedy.precedes_of_mostConstrained h.nodes hbest hwaits with heq | hbefore
        · exact heq
        · -- Each of the two would come before the other.
          have hnot := precedes_asymm (hafter best hrest)
          rw [hbefore] at hnot
          exact absurd hnot (by simp)

/-- A step with the queue colors the most constrained node, and the queue goes on to hold
    the entries of all waiting nodes. -/
theorem step (g : Interference M) (h : s.Covers) :
    (s.step g).toGreedy = s.toGreedy.step g ∧ (s.step g).Covers := by
  have hhead := h.head_eq
  unfold Queued.step Greedy.step
  cases hqueue : s.queue.dropWhile fun entry => !s.waiting.contains entry with
  | nil =>
      rw [hqueue, List.head?_nil] at hhead
      have hnil := Greedy.eq_nil_of_mostConstrained hhead.symm
      rw [← hhead]
      exact ⟨rfl, .nil, by simp [hnil], by simp [hnil]⟩
  | cons entry rest =>
      obtain ⟨n, count⟩ := entry
      rcases h.of_dropWhile hqueue with ⟨_, hall, _, hsorted⟩
      rw [hqueue, List.head?_cons] at hhead
      rw [← hhead]
      refine ⟨rfl, pairwise_foldr_insert _ hsorted, fun other hother => ?_, ?_⟩
      · refine mem_foldr_insert.mpr ?_
        by_cases hold : other ∈ s.waiting
        · -- An entry that has not changed is still in the queue.
          refine Or.inr ((hall other hold).resolve_left ?_)
          rintro rfl
          have hnode := List.mem_map_of_mem (f := Prod.fst) hother
          simp only [Greedy.map_fst_waiting_process, Greedy.mem_filter_waiting] at hnode
          exact hnode.2 rfl
        · -- A count that has grown makes a new entry.
          exact Or.inl (List.mem_filter.mpr ⟨hother, by simpa using hold⟩)
      · simp only [Greedy.map_fst_waiting_process]
        exact h.nodes.sublist (List.filter_sublist.map Prod.fst)

theorem steps (g : Interference M) (k : Nat) (h : s.Covers) :
    (s.steps g k).toGreedy = s.toGreedy.steps g k := by
  induction k generalizing s with
  | zero => rfl
  | succ k ih =>
      rcases h.step g with ⟨hstep, hcovers⟩
      rw [Queued.steps, Greedy.steps, ih hcovers, hstep]

end Covers

end Queued

namespace Interference

/-- To begin with, every waiting node is entered. -/
theorem covers_start (g : Interference M) (own : Assignment M) :
    Queued.Covers { g.start own with queue := ascending precedes (g.start own).waiting } where
  sorted := pairwise_ascending precedes_trans _
  entered _ hentry := (mem_ascending precedes_apart).mpr hentry
  nodes := by
    simp only [start, List.map_map, Function.comp_def, List.map_id']
    exact List.pairwise_lt_range.sublist List.filter_sublist

/-- Color all nodes, looking through the waiting ones at each step. -/
def colorByCounts (g : Interference M) : Except Unsupported (Coloring M) := do
  let own ← precolor 0 (g.nodes.toList.map fun node => node.label.regs)
  let start := g.start own
  let final := start.steps g start.waiting.length
  return if final.blames.isEmpty then .complete (final.colorsUpTo g.size) else .stuck final.blames

/-- Coloring does not depend on the queue. -/
theorem color_eq (g : Interference M) : g.color = g.colorByCounts := by
  unfold color colorByCounts
  refine congrArg _ (funext fun own => ?_)
  simp only [(g.covers_start own).steps g]

end Interference

end RegisterColoring
