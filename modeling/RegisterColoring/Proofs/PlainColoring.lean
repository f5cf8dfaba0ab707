import Mathlib.Data.List.Sort
import RegisterColoring.Machine.Flat
import RegisterColoring.Proofs.Blamed
import RegisterColoring.Proofs.CompleteColoring
import RegisterColoring.Sample

/-!
# The Plain Greedy Coloring

The rule that coloring follows, without counts that are kept, without a queue and without
lists of blames. The nodes that came with registers have them. Of the others, the one with
the most colored neighbours is next, and the lowest of these; it takes the first register
of its class that aliases no colored neighbour's, or stays uncolored. What is to blame is
read off at the end, from the nodes that stayed uncolored and the neighbours that were
colored by then.

Coloring agrees with this rule step by step. Its counts are the numbers of colored
neighbours: a node that gets a color is missing from the count of each waiting neighbour,
and links go both ways, so its own neighbours are the ones whose counts have to grow.

## Main definitions

* `Plain`: Coloring by the plain rule, under way.
* `Interference.mostColored?`, `Interference.firstFree?`: The next node and its register.
* `Plain.run`: Visit all nodes.
* `Interference.plainColoring`: The coloring that the rule gives.
* `Tally`: A list of blames that says how often each node is blamed.
* `Greedy.Follows`: What every step keeps true of the two colorings.

## Theorems

* `Tally.blame`, `Tally.unique`: One blame more, and the list that a count has.
* `Greedy.Follows.mostColored`: Both choose the same node.
* `Greedy.Follows.process`, `Greedy.Follows.steps`: One step, and all of them.
* `Function.color_eq_plainColoring`: Coloring gives what the rule gives.
-/

namespace RegisterColoring

variable {M : Machine}

/-- Coloring by the plain rule, under way. -/
structure Plain (M : Machine) where
  colors : Nat → Option M.Reg
  /-- The nodes that stayed uncolored, each with the neighbours that were colored then. -/
  failures : List (Nat × List Nat)

namespace Interference

def coloredBeside (g : Interference M) (colors : Nat → Option M.Reg) (n : Nat) : List Nat :=
  (g.neighbors n).filter fun m => (colors m).isSome

/-- The first register of the node's class that aliases no colored neighbour's register. -/
def firstFree? (g : Interference M) (colors : Nat → Option M.Reg) (n : Nat) : Option M.Reg :=
  (g.class? n).bind fun c => (M.members c).find? fun p =>
    (g.neighbors n).all fun m => (colors m).all fun q => !Machine.aliases q p

/-- The first of the nodes with the most colored neighbours. -/
def mostColored? (g : Interference M) (colors : Nat → Option M.Reg) (todo : List Nat) :
    Option Nat :=
  todo.find? fun n => todo.all fun m =>
    decide ((g.coloredBeside colors m).length ≤ (g.coloredBeside colors n).length)

end Interference

namespace Plain

/-- Color a node, or leave it uncolored. -/
def visit (g : Interference M) (t : Plain M) (n : Nat) : Plain M :=
  match g.firstFree? t.colors n with
  | some p => { t with colors := fun m => if m = n then some p else t.colors m }
  | none => { t with failures := (n, g.coloredBeside t.colors n) :: t.failures }

/-- Visit the nodes of an ascending list, always the one with the most colored neighbours
    and the lowest of these. -/
def run (g : Interference M) (todo : List Nat) (t : Plain M) : Plain M :=
  match _ : g.mostColored? t.colors todo with
  | none => t
  | some n => run g (todo.erase n) (t.visit g n)
termination_by todo.length
decreasing_by
  rename_i hnext
  have hmem := List.mem_of_find?_eq_some hnext
  have hpos := List.length_pos_of_mem hmem
  rw [List.length_erase_of_mem hmem]
  omega

/-- How often a node is to blame: once if it stayed uncolored, and once for each node that
    stayed uncolored while this one was a colored neighbour. -/
def blamesOf (t : Plain M) (n : Nat) : Nat :=
  (if n ∈ t.failures.map Prod.fst then 1 else 0) +
    t.failures.countP fun failure => failure.2.contains n

theorem run_of_some {g : Interference M} {t : Plain M} {todo : List Nat} {n : Nat}
    (h : g.mostColored? t.colors todo = some n) :
    t.run g todo = (t.visit g n).run g (todo.erase n) := by
  rw [run]
  split
  · rename_i hnone
    rw [h] at hnone
    exact absurd hnone (by simp)
  · rename_i hsome
    rw [h, Option.some.injEq] at hsome
    rw [hsome]

theorem blamesOf_cons {t : Plain M} {n : Nat} {colored : List Nat}
    (hn : n ∉ t.failures.map Prod.fst) (hnodup : colored.Nodup) (m : Nat) :
    ({ t with failures := (n, colored) :: t.failures } : Plain M).blamesOf m =
      t.blamesOf m + (n :: colored).count m := by
  unfold blamesOf
  rw [List.countP_cons, List.count_cons, hnodup.count]
  simp only [List.map_cons, List.mem_cons, List.contains_iff_mem, beq_iff_eq]
  by_cases hmn : m = n
  · subst hmn
    simp only [true_or, if_true, if_neg hn]
    omega
  · simp only [hmn, Ne.symm hmn, false_or, if_false]
    omega

end Plain

/-- The coloring of the plain rule. -/
def Interference.plainColoring (g : Interference M) : Coloring M :=
  let todo := (List.range g.size).filter fun n => (g.own? n).isNone
  let final := Plain.run g todo ⟨g.own?, []⟩
  if final.failures.isEmpty then
    .complete ((List.range g.size).filterMap fun n => (final.colors n).map fun p => (n, p))
  else
    .stuck ((List.range g.size).filterMap fun n =>
      if final.blamesOf n = 0 then none else some (n, final.blamesOf n))

/-- An ascending list of blames that says how often each node is blamed. -/
structure Tally (blames : List (Nat × Nat)) (count : Nat → Nat) : Prop where
  sorted : blames.Pairwise fun a b => a.1 < b.1
  entries : ∀ n k, (n, k) ∈ blames ↔ k = count n ∧ 0 < k

/-- One more blame raises the entry of its node or makes one. -/
theorem mem_blame_iff {n m k : Nat} {blames : List (Nat × Nat)}
    (hsorted : blames.Pairwise fun a b => a.1 < b.1) :
    (m, k) ∈ blame n blames ↔ (m ≠ n ∧ (m, k) ∈ blames) ∨
      (m = n ∧ ((∃ j, (n, j) ∈ blames ∧ k = j + 1) ∨ (∀ j, (n, j) ∉ blames) ∧ k = 1)) := by
  induction blames with
  | nil => simp [blame]
  | cons entry rest ih =>
      obtain ⟨i, count⟩ := entry
      rw [List.pairwise_cons] at hsorted
      unfold blame
      have hlater : ∀ j, (i, j) ∉ rest := fun j hj => Nat.lt_irrefl i (hsorted.1 _ hj)
      by_cases hlt : n < i
      · -- All entries are above the node.
        have hnone : ∀ j, (n, j) ∉ (i, count) :: rest := by
          intro j hj
          rcases List.mem_cons.mp hj with heq | hj
          · exact absurd (congrArg Prod.fst heq) (Nat.ne_of_lt hlt)
          · have habove : i < n := hsorted.1 _ hj
            omega
        rw [if_pos hlt, List.mem_cons, Prod.mk.injEq]
        constructor
        · rintro (⟨rfl, rfl⟩ | hmem)
          · exact Or.inr ⟨rfl, Or.inr ⟨hnone, rfl⟩⟩
          · refine Or.inl ⟨?_, hmem⟩
            rintro rfl
            exact hnone k hmem
        · rintro (⟨_, hmem⟩ | ⟨rfl, ⟨j, hj, _⟩ | ⟨_, rfl⟩⟩)
          · exact Or.inr hmem
          · exact absurd hj (hnone j)
          · exact Or.inl ⟨rfl, rfl⟩
      · rw [if_neg hlt]
        by_cases heq : n = i
        · -- The entry in front is the one of the node, and there is no other.
          subst heq
          rw [if_pos rfl]
          simp only [List.mem_cons, Prod.mk.injEq, true_and]
          constructor
          · rintro (⟨rfl, rfl⟩ | hmem)
            · exact Or.inr ⟨rfl, Or.inl ⟨count, Or.inl rfl, rfl⟩⟩
            · refine Or.inl ⟨?_, Or.inr hmem⟩
              rintro rfl
              exact hlater k hmem
          · rintro (⟨hne, ⟨rfl, _⟩ | hmem⟩ | ⟨rfl, ⟨j, rfl | hj, rfl⟩ | ⟨hnone, _⟩⟩)
            · exact absurd rfl hne
            · exact Or.inr hmem
            · exact Or.inl ⟨rfl, rfl⟩
            · exact absurd hj (hlater j)
            · exact absurd (Or.inl rfl) (hnone count)
        · rw [if_neg heq, List.mem_cons, ih hsorted.2]
          simp only [List.mem_cons, Prod.mk.injEq]
          have hni : ∀ j, ¬ (n = i ∧ j = count) := fun j h => heq h.1
          simp only [hni, false_or]
          constructor
          · rintro (⟨rfl, rfl⟩ | ⟨hne, hmem⟩ | hnew)
            · exact Or.inl ⟨Ne.symm heq, Or.inl ⟨rfl, rfl⟩⟩
            · exact Or.inl ⟨hne, Or.inr hmem⟩
            · exact Or.inr hnew
          · rintro (⟨hne, ⟨rfl, rfl⟩ | hmem⟩ | hnew)
            · exact Or.inl ⟨rfl, rfl⟩
            · exact Or.inr (Or.inl ⟨hne, hmem⟩)
            · exact Or.inr (Or.inr hnew)

theorem pairwise_blame (n : Nat) {blames : List (Nat × Nat)}
    (hsorted : blames.Pairwise fun a b => a.1 < b.1) :
    (blame n blames).Pairwise fun a b => a.1 < b.1 := by
  induction blames with
  | nil => simp [blame]
  | cons entry rest ih =>
      obtain ⟨i, count⟩ := entry
      rw [List.pairwise_cons] at hsorted
      unfold blame
      by_cases hlt : n < i
      · rw [if_pos hlt]
        refine List.pairwise_cons.mpr ⟨fun other hother => ?_, List.pairwise_cons.mpr hsorted⟩
        rcases List.mem_cons.mp hother with rfl | hother
        · exact hlt
        · exact Nat.lt_trans hlt (hsorted.1 other hother)
      · rw [if_neg hlt]
        by_cases heq : n = i
        · rw [if_pos heq]
          exact List.pairwise_cons.mpr ⟨hsorted.1, hsorted.2⟩
        · rw [if_neg heq]
          refine List.pairwise_cons.mpr ⟨fun other hother => ?_, ih hsorted.2⟩
          -- The entries are those of the rest and the one of the node.
          rcases mem_blame.mp (List.mem_map_of_mem (f := Prod.fst) hother) with hother | hother
          · simp only [hother]
            omega
          · rcases List.mem_map.mp hother with ⟨old, hold, hfst⟩
            rw [← hfst]
            exact hsorted.1 old hold

namespace Tally

variable {blames : List (Nat × Nat)} {count : Nat → Nat}

theorem blame (h : Tally blames count) (n : Nat) :
    Tally (RegisterColoring.blame n blames) fun m => count m + [n].count m where
  sorted := pairwise_blame n h.sorted
  entries m k := by
    rw [mem_blame_iff h.sorted]
    simp only [h.entries, List.count_singleton, beq_iff_eq]
    by_cases hmn : m = n
    · subst hmn
      constructor
      · rintro (⟨hne, _⟩ | ⟨_, ⟨j, ⟨rfl, _⟩, rfl⟩ | ⟨hnone, rfl⟩⟩)
        · exact absurd rfl hne
        · simp
        · have hzero : count m = 0 := by
            by_contra hne
            exact hnone _ ⟨rfl, by omega⟩
          simp [hzero]
      · rintro ⟨rfl, _⟩
        refine Or.inr ⟨rfl, ?_⟩
        by_cases hzero : count m = 0
        · exact Or.inr ⟨fun j hj => by omega, by simp [hzero]⟩
        · exact Or.inl ⟨count m, ⟨rfl, by omega⟩, by simp⟩
    · simp [hmn, Ne.symm hmn]

theorem foldl (h : Tally blames count) (nodes : List Nat) :
    Tally (nodes.foldl (fun blames n => RegisterColoring.blame n blames) blames)
      fun m => count m + nodes.count m := by
  induction nodes generalizing blames count with
  | nil => simpa using h
  | cons n nodes ih =>
      have hrest := ih (h.blame n)
      simp only [List.foldl_cons]
      refine ⟨hrest.sorted, fun m k => ?_⟩
      rw [hrest.entries, Nat.add_assoc, ← List.count_append, List.singleton_append]

/-- A count has one list of blames. -/
theorem unique {blames' : List (Nat × Nat)} (h : Tally blames count) (h' : Tally blames' count) :
    blames = blames' := by
  have hirrefl : Std.Irrefl fun a b : Nat × Nat => a.1 < b.1 := ⟨fun a => Nat.lt_irrefl a.1⟩
  have hantisymm : Std.Antisymm fun a b : Nat × Nat => a.1 < b.1 :=
    ⟨fun a b hab hba => absurd hab (Nat.lt_asymm hba)⟩
  refine h.sorted.eq_of_mem_iff h'.sorted fun entry => ?_
  rw [h.entries entry.1 entry.2, h'.entries entry.1 entry.2]

/-- The list of all nodes below a bound that are blamed. -/
theorem ofCount {size : Nat} (hsize : ∀ n, count n ≠ 0 → n < size) :
    Tally ((List.range size).filterMap fun n => if count n = 0 then none else some (n, count n))
      count where
  sorted := by
    refine List.Pairwise.filterMap _ (fun n m hnm a ha b hb => ?_) List.pairwise_lt_range
    split at ha
    · exact absurd ha (by simp)
    · split at hb
      · exact absurd hb (by simp)
      · rw [← Option.some.inj ha, ← Option.some.inj hb]
        exact hnm
  entries n k := by
    simp only [List.mem_filterMap, List.mem_range]
    constructor
    · rintro ⟨m, _, hm⟩
      split at hm
      · exact absurd hm (by simp)
      · obtain ⟨rfl, rfl⟩ := Prod.mk.inj (Option.some.inj hm)
        exact ⟨rfl, by omega⟩
    · rintro ⟨rfl, hpos⟩
      refine ⟨n, hsize n (by omega), ?_⟩
      rw [if_neg (by omega)]

end Tally

namespace Greedy

variable {g : Interference M} {s : Greedy M} {t : Plain M} {todo : List Nat}

/-- Coloring is where the plain rule is: the same colors, the same nodes to color, with
    the numbers of their colored neighbours, and the same blames. -/
structure Follows (g : Interference M) (s : Greedy M) (todo : List Nat) (t : Plain M) : Prop where
  colors : ∀ n, s.colors.lookup n = t.colors n
  waiting : s.waiting = todo.map fun n => (n, (g.coloredBeside t.colors n).length)
  blames : Tally s.blames t.blamesOf
  sorted : todo.Pairwise (· < ·)
  classes : ∀ n ∈ todo, g.class? n ≠ none
  uncolored : ∀ n ∈ todo, t.colors n = none
  unvisited : ∀ n ∈ todo, n ∉ t.failures.map Prod.fst

theorem freeRegister_eq {colors : Nat → Option M.Reg} (hcolors : ∀ n, s.colors.lookup n = colors n)
    {n : Nat} {c : M.Class} (hclass : g.class? n = some c) :
    freeRegister? s.colors (g.neighbors n) c = g.firstFree? colors n := by
  unfold Interference.firstFree?
  rw [freeRegister_eq_find, hclass, Option.bind_some]
  refine congrArg (List.find? · (M.members c)) (funext fun p => ?_)
  rw [Bool.eq_iff_iff, List.all_eq_true, List.all_eq_true]
  simp only [List.mem_filterMap, hcolors]
  constructor
  · intro hall m hm
    cases hq : colors m with
    | none => rfl
    | some q => exact hall q ⟨m, hm, hq⟩
  · rintro hall q ⟨m, hm, hq⟩
    have hfree := hall m hm
    rw [hq] at hfree
    exact hfree

/-- A new color raises the number of colored neighbours of all nodes that it is linked
    to. -/
theorem length_coloredBeside {colors : Nat → Option M.Reg} {n m : Nat}
    (hnodup : (g.neighbors m).Nodup) (hn : colors n = none) (p : M.Reg) :
    (g.coloredBeside (fun k => if k = n then some p else colors k) m).length =
      (g.coloredBeside colors m).length + if n ∈ g.neighbors m then 1 else 0 := by
  unfold Interference.coloredBeside
  rw [← List.countP_eq_length_filter, ← List.countP_eq_length_filter]
  generalize g.neighbors m = nodes at hnodup
  induction nodes with
  | nil => rfl
  | cons k nodes ih =>
      rw [List.nodup_cons] at hnodup
      rw [List.countP_cons, List.countP_cons, ih hnodup.2]
      by_cases hk : k = n
      · -- The node itself was not counted before, and it is not listed again.
        subst hk
        simp [hn, hnodup.1]
      · simp only [hk, Ne.symm hk, if_false, false_or, List.mem_cons]
        omega

namespace Follows

/-- Both choose the same node. -/
theorem mostColored (h : Follows g s todo t) :
    g.mostColored? t.colors todo = (mostConstrained? s.waiting).map Prod.fst := by
  have hnodes : s.waiting.map Prod.fst = todo := by
    rw [h.waiting, List.map_map]
    exact List.map_id todo
  cases hmost : mostConstrained? s.waiting with
  | none =>
      rw [eq_nil_of_mostConstrained hmost] at hnodes
      rw [← hnodes]
      rfl
  | some entry =>
      have hbefore : ∀ m ∈ todo, (m, (g.coloredBeside t.colors m).length) = entry ∨
          precedes entry (m, (g.coloredBeside t.colors m).length) = true := by
        intro m hm
        refine precedes_of_mostConstrained (hnodes ▸ h.sorted) hmost ?_
        rw [h.waiting]
        exact List.mem_map.mpr ⟨m, hm, rfl⟩
      have hmem := mem_of_mostConstrained hmost
      rw [h.waiting] at hmem
      rcases List.mem_map.mp hmem with ⟨n, hn, rfl⟩
      simp only [precedes_iff, Prod.mk.injEq] at hbefore
      -- What the search passes over is in front of the node.
      rcases List.append_of_mem hn with ⟨front, back, rfl⟩
      simp only [Option.map_some]
      refine List.find?_eq_some_iff_append.mpr ⟨?_, front, back, rfl, fun m hm => ?_⟩
      · refine List.all_eq_true.mpr fun m hm => decide_eq_true ?_
        rcases hbefore m hm with ⟨rfl, _⟩ | hless
        · exact Nat.le_refl _
        · omega
      · -- The nodes in front are lower, so they must have fewer colored neighbours.
        have hlower := (List.pairwise_append.mp h.sorted).2.2 m hm n List.mem_cons_self
        rw [Bool.not_eq_true', List.all_eq_false]
        refine ⟨n, by simp, ?_⟩
        rw [decide_eq_true_eq]
        have hless := hbefore m (List.mem_append_left _ hm)
        omega

/-- The node that was visited no longer waits, and the others still do. -/
theorem filter_waiting (h : Follows g s todo t) (n : Nat) :
    (s.waiting.filter fun entry => decide (entry.1 ≠ n)) =
      (todo.erase n).map fun m => (m, (g.coloredBeside t.colors m).length) := by
  rw [h.waiting, List.filter_map, List.Nodup.erase_eq_filter (h.sorted.imp Nat.ne_of_lt)]
  refine congrArg (List.map _) (List.filter_congr fun m _ => ?_)
  rw [Bool.eq_iff_iff, Function.comp_apply, decide_eq_true_eq, bne_iff_ne]

/-- Processing a waiting node keeps coloring where the plain rule is. -/
theorem process (hg : g.Mutual) (hnodup : ∀ n, (g.neighbors n).Nodup) (h : Follows g s todo t)
    {n : Nat} (hn : n ∈ todo) : Follows g (s.process g n) (todo.erase n) (t.visit g n) := by
  have hnodes : todo.Nodup := h.sorted.imp Nat.ne_of_lt
  have hrest : ∀ m ∈ todo.erase n, m ≠ n ∧ m ∈ todo := fun m hm =>
    (hnodes.mem_erase_iff).mp hm
  have hsorted := h.sorted.sublist (List.erase_sublist (a := n))
  have hclasses : ∀ m ∈ todo.erase n, g.class? m ≠ none := fun m hm => h.classes m (hrest m hm).2
  rcases Option.ne_none_iff_exists'.mp (h.classes n hn) with ⟨c, hclass⟩
  unfold Greedy.process Plain.visit
  simp only [hclass, ← freeRegister_eq h.colors hclass, h.filter_waiting n]
  cases hfree : freeRegister? s.colors (g.neighbors n) c with
  | some p =>
      refine ⟨fun m => ?_, ?_, h.blames, hsorted, hclasses, fun m hm => ?_, fun m hm => ?_⟩
      · simp only [lookup_cons, h.colors]
      · simp only [List.map_map]
        refine List.map_congr_left fun m hm => ?_
        simp only [Function.comp_apply,
          length_coloredBeside (hnodup m) (h.uncolored n hn) p, List.contains_iff_mem]
        -- The link goes both ways.
        have hlink : m ∈ g.neighbors n ↔ n ∈ g.neighbors m := ⟨hg.symm n m, hg.symm m n⟩
        by_cases hm : m ∈ g.neighbors n
        · rw [if_pos hm, if_pos (hlink.mp hm)]
        · rw [if_neg hm, if_neg (hlink.not.mp hm)]
          rfl
      · simp only [if_neg (hrest m hm).1]
        exact h.uncolored m (hrest m hm).2
      · exact h.unvisited m (hrest m hm).2
  | none =>
      refine ⟨h.colors, rfl, ?_, hsorted, hclasses, fun m hm => h.uncolored m (hrest m hm).2,
        fun m hm => ?_⟩
      · -- The node and its colored neighbours are blamed, once each.
        have hcolored : ((g.neighbors n).filter fun m => (s.colors.lookup m).isSome) =
            g.coloredBeside t.colors n := List.filter_congr fun m _ => by rw [h.colors]
        simp only [hcolored]
        have htally := h.blames.foldl (n :: g.coloredBeside t.colors n)
        refine ⟨htally.sorted, fun m k => ?_⟩
        have hbeside : (g.coloredBeside t.colors n).Nodup := (hnodup n).filter _
        rw [htally.entries, Plain.blamesOf_cons (h.unvisited n hn) hbeside]
      · simp only [List.map_cons, List.mem_cons, not_or]
        exact ⟨(hrest m hm).1, h.unvisited m (hrest m hm).2⟩

/-- When all nodes have been visited, coloring is where the plain rule ends. -/
theorem steps (hg : g.Mutual) (hnodup : ∀ n, (g.neighbors n).Nodup) (h : Follows g s todo t) :
    Follows g (s.steps g s.waiting.length) [] (t.run g todo) := by
  -- Every step takes one node off the waiting list.
  generalize hk : s.waiting.length = k
  induction k generalizing s todo t with
  | zero =>
      have hnil : todo = [] := by
        rw [h.waiting, List.length_map] at hk
        exact List.eq_nil_of_length_eq_zero hk
      subst hnil
      rw [Plain.run]
      exact h
  | succ k ih =>
      have hnext := h.mostColored
      rcases exists_mostConstrained (List.ne_nil_of_length_eq_add_one hk) with ⟨entry, hentry⟩
      rw [hentry, Option.map_some] at hnext
      have hmem : entry.1 ∈ todo := List.mem_of_find?_eq_some hnext
      have hprocess := h.process hg hnodup hmem
      rw [Plain.run_of_some hnext, Greedy.steps, Greedy.step, hentry]
      refine ih hprocess ?_
      have hlength := congrArg List.length hprocess.waiting
      rw [List.length_map, List.length_erase_of_mem hmem] at hlength
      rw [h.waiting, List.length_map] at hk
      simp only [hlength, hk, Nat.add_sub_cancel]

/-- Something is blamed exactly if a node stayed uncolored. -/
theorem blames_isEmpty (h : Follows g s todo t) : s.blames.isEmpty = t.failures.isEmpty := by
  cases hfailures : t.failures with
  | nil =>
      have hzero : ∀ n, t.blamesOf n = 0 := fun n => by simp [Plain.blamesOf, hfailures]
      refine List.isEmpty_iff.mpr (List.eq_nil_iff_forall_not_mem.mpr fun entry hentry => ?_)
      have hcount := (h.blames.entries entry.1 entry.2).mp hentry
      rw [hzero] at hcount
      omega
  | cons failure rest =>
      have hpos : 0 < t.blamesOf failure.1 := by
        simp only [Plain.blamesOf, hfailures, List.map_cons, List.mem_cons, true_or, if_true]
        omega
      have hmem := (h.blames.entries failure.1 _).mpr ⟨rfl, hpos⟩
      exact List.isEmpty_eq_false_iff.mpr (List.ne_nil_of_mem hmem)

end Follows

end Greedy

/-- A list with no two different registers of the machine has one to hold or none. -/
theorem exists_soleRegister {regs : List (Register M)}
    (h : ∀ p q, .physical p ∈ regs → .physical q ∈ regs → p = q) :
    ∃ o, soleRegister regs = .ok o := by
  have hmem : ∀ p, p ∈ regs.filterMap Register.physical? → .physical p ∈ regs := by
    intro p hp
    rcases List.mem_filterMap.mp hp with ⟨r, hr, hphysical⟩
    cases r with
    | virtual v => exact absurd hphysical (by simp [Register.physical?])
    | physical q => exact Option.some.inj hphysical ▸ hr
  unfold soleRegister
  cases hphys : regs.filterMap Register.physical? with
  | nil => exact ⟨none, rfl⟩
  | cons first rest =>
      -- All that follow are the first one again.
      rw [hphys] at hmem
      have hnone : rest.find? (fun p => decide (p ≠ first)) = none := by
        refine List.find?_eq_none.mpr fun p hp => ?_
        have hsame := h p first (hmem p (List.mem_cons_of_mem _ hp)) (hmem first List.mem_cons_self)
        simp [hsame]
      exact ⟨some first, by simp only [hnone]⟩

theorem exists_precolor {labels : List (List (Register M))} (n : Nat)
    (h : ∀ regs ∈ labels, ∀ p q, .physical p ∈ regs → .physical q ∈ regs → p = q) :
    ∃ own, precolor n labels = .ok own := by
  induction labels generalizing n with
  | nil => exact ⟨[], rfl⟩
  | cons regs rest ih =>
      rcases exists_soleRegister (h regs List.mem_cons_self) with ⟨o, ho⟩
      rcases ih (n + 1) fun regs hregs => h regs (List.mem_cons_of_mem _ hregs) with
        ⟨others, hothers⟩
      rw [precolor, ho, hothers]
      exact ⟨_, rfl⟩

namespace Interference

variable {g : Interference M}

/-- Coloring starts where the plain rule starts. -/
theorem follows_start {own : Assignment M} (hown : ∀ n, own.lookup n = g.own? n)
    (hclass : ∀ n < g.size, g.own? n = none → g.class? n ≠ none) :
    Greedy.Follows g (g.start own) ((List.range g.size).filter fun n => (g.own? n).isNone)
      ⟨g.own?, []⟩ where
  colors := hown
  waiting := by
    unfold start coloredBeside
    simp only [hown]
  blames := ⟨.nil, fun n k => by simp [start, Plain.blamesOf]⟩
  sorted := List.pairwise_lt_range.sublist List.filter_sublist
  classes n hn := by
    rw [List.mem_filter, List.mem_range, Option.isNone_iff_eq_none] at hn
    exact hclass n hn.1 hn.2
  uncolored n hn := Option.isNone_iff_eq_none.mp (List.mem_filter.mp hn).2
  unvisited _ _ := by simp

theorem exists_regs {regs : List (Register M)}
    (h : regs ∈ g.nodes.toList.map fun node => node.label.regs) : ∃ n, g.regs n = regs := by
  rcases List.mem_map.mp h with ⟨node, hnode, rfl⟩
  rcases List.getElem?_of_mem hnode with ⟨n, hn⟩
  rw [Array.getElem?_toList] at hn
  refine ⟨n, ?_⟩
  unfold Interference.regs Digraph.label?
  rw [hn]
  rfl

/-- On a graph whose links go both ways and whose nodes have a class, unless they came with
    a register, coloring gives what the plain rule gives. -/
theorem color_eq_plain (hg : g.Mutual) (hnodup : ∀ n, (g.neighbors n).Nodup)
    (hclass : ∀ n < g.size, g.own? n = none → g.class? n ≠ none)
    (hone : ∀ n p q, .physical p ∈ g.regs n → .physical q ∈ g.regs n → p = q) :
    g.color = .ok g.plainColoring := by
  have hlabels : ∀ regs ∈ g.nodes.toList.map (fun node => node.label.regs), ∀ p q,
      .physical p ∈ regs → .physical q ∈ regs → p = q := by
    intro regs hregs
    rcases exists_regs hregs with ⟨n, rfl⟩
    exact hone n
  rcases exists_precolor 0 hlabels with ⟨own, hown⟩
  have hfollows := (follows_start (lookup_own hown) hclass).steps hg hnodup
  have haccount := (accounted_start g own).steps hg (g.start own).waiting.length
  rw [color_eq, colorByCounts, hown]
  simp only [bind, Except.bind, pure, Except.pure, Except.ok.injEq]
  unfold plainColoring
  simp only [hfollows.blames_isEmpty]
  split
  · refine congrArg Coloring.complete ?_
    unfold Greedy.colorsUpTo
    simp only [hfollows.colors]
  · -- Whatever is blamed is a node of the graph.
    refine congrArg Coloring.stuck (hfollows.blames.unique (Tally.ofCount fun n hn => ?_))
    have hmem := (hfollows.blames.entries n _).mpr ⟨rfl, Nat.pos_of_ne_zero hn⟩
    exact haccount.blames n (List.mem_map.mpr ⟨_, hmem, rfl⟩)

end Interference

theorem pairwise_succ_ofRelation {α : Type} (labels : List α) (related : α → α → Bool) (n : Nat) :
    ((Digraph.ofRelation labels related).succ n).Pairwise (· < ·) := by
  have hindices : labels.zipIdx.Pairwise fun a b => a.2 < b.2 := by
    rw [← List.pairwise_map (f := Prod.snd) (R := (· < ·)), List.zipIdx_map_snd]
    exact List.pairwise_lt_range'
  unfold Digraph.succ Digraph.ofRelation
  rw [List.getElem?_toArray, List.getElem?_map, List.getElem?_zipIdx]
  cases hn : labels[n]? with
  | none => exact .nil
  | some a =>
      refine List.Pairwise.filterMap _ (fun b c hbc m hm k hk => ?_) hindices
      rw [← Option.some.inj (Option.ite_none_right_eq_some.mp hm).2,
        ← Option.some.inj (Option.ite_none_right_eq_some.mp hk).2]
      exact hbc

/-- No neighbour is listed twice. -/
theorem Liveness.nodup_neighbors (l : Liveness M) (n : Nat) : (l.interference.neighbors n).Nodup :=
  (pairwise_succ_ofRelation _ _ n).imp Nat.ne_of_lt

namespace Function

variable {f : Function M} {l : Liveness M}

/-- Every node came with a register or has a class. -/
theorem class_ne_none (hl : f.liveness = .ok l) {n : Nat} (hn : n < l.interference.size)
    (hown : l.interference.own? n = none) : l.interference.class? n ≠ none := by
  rw [Liveness.size_interference] at hn
  have hgroup := List.getElem?_eq_getElem hn
  rcases List.exists_mem_of_ne_nil _ (pairwise_group hl hgroup).2 with ⟨r, hr⟩
  rw [← Liveness.regs_interference hgroup] at hr
  rw [Interference.class?, Liveness.label_interference, hgroup]
  simp only [Option.map_some, Option.bind_some, Group.class?, ne_eq, Option.map_eq_none_iff]
  intro hnone
  cases r with
  | physical p => exact Interference.own_eq_none_iff.mp hown ⟨p, hr⟩
  | virtual v =>
      rw [Liveness.regs_interference hgroup] at hr
      exact absurd (List.findSome?_eq_none_iff.mp hnone _ hr) (by simp [Register.virtual?])

/-- On every interference graph in which no node holds two different registers of the
    machine, coloring gives what the plain rule gives. -/
theorem color_eq_plainColoring (hl : f.liveness = .ok l)
    (hone : ∀ n p q, .physical p ∈ l.interference.regs n → .physical q ∈ l.interference.regs n →
      p = q) : l.interference.color = .ok l.interference.plainColoring :=
  Interference.color_eq_plain l.mutual_interference l.nodup_neighbors
    (fun _ => class_ne_none hl) hone

/-- Three values beside a register of the machine that they cannot have, with one register
    left to share. -/
def crowded : Function flat :=
  let r (k : Nat) : VReg flat := ⟨k, FlatClass.mk 2⟩
  ⟨"crowded", [⟨[], [
    ⟨.common .copy, [.physical (0 : Fin 16)], [.imm 1]⟩,
    Sample.assign .copy (r 0) [.imm 2], Sample.assign .copy (r 1) [.imm 3],
    Sample.assign .copy (r 2) [.imm 4],
    Sample.assign .add (r 3) [.ofVReg (r 0), .ofVReg (r 1)],
    Sample.assign .add (r 4) [.ofVReg (r 3), .ofVReg (r 2)],
    Sample.assign .sub (r 5) [.ofVReg (r 4), .reg (.physical (0 : Fin 16))],
    Sample.perform .ret [.ofVReg (r 5)]]⟩]⟩

/-- Two values stay uncolored while the register and another value are in their way. -/
theorem crowded_plainColoring :
    ∃ l, crowded.liveness = .ok l ∧ l.interference.color = .ok l.interference.plainColoring ∧
      l.interference.plainColoring = .stuck [(0, 2), (1, 1), (2, 1), (6, 2)] := by
  have hgroups : ∀ group ∈ (crowded.livenessOf (crowded.blocks.map Block.scan)).groups,
      ∀ p q : Fin 16, .physical p ∈ group → .physical q ∈ group → p = q := by
    decide +kernel
  have hplain := color_eq_plainColoring (f := crowded) rfl fun n p q hp hq => by
    rcases Liveness.exists_group_of_mem_regs hp with ⟨group, hn, hp⟩
    rw [Liveness.regs_interference hn] at hq
    exact hgroups group (List.mem_of_getElem? hn) p q hp hq
  refine ⟨_, rfl, hplain, ?_⟩
  rw [← Except.ok.injEq, ← hplain]
  rfl

end Function

end RegisterColoring
