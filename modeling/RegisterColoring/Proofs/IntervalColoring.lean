import RegisterColoring.Proofs.PlainColoring

/-!
# Coloring Intervals

On a graph whose nodes are intervals and whose links are the points they share, coloring
uses no more registers than intervals cover one point. What makes it so is the order: the
next node is one with the most colored neighbours, and so the colored neighbours of a node
that is still to be colored meet one another. Intervals that meet one another pairwise
have a point in common.

Suppose that two colored nodes were apart, and nodes that are left led across from the one
to the other. Go back to when the later of them, say the left one, was visited. The node
that leads up to the right one met it already, so to be preferred the left one must have
met an earlier node that the other did not meet. That node is further left, and still led
across to the right one, so the same was true before.

## Main definitions

* `Intervals`: An interval for every node.
* `Intervals.load`: How many intervals cover a point.
* `Intervals.Searched`: Nodes in an order in which the search can visit them.
* `Intervals.Bridged`: Nodes that are left lead from one node to another.
* `Interference.DrawnBy`: The links of a graph are those of intervals.

## Theorems

* `Intervals.Searched.not_bridged`: Nodes that are left lead nowhere.
* `Intervals.Searched.meet`: Visited nodes that a node meets meet each other.
* `Intervals.exists_common`: Intervals that meet one another have a common point.
* `Plain.run_inv`: What all visits preserve.
* `Interference.load_le`, `Interference.exists_complete`: How many registers it takes.
-/

namespace RegisterColoring

variable {M : Machine}

/-- An interval for every node, from its first to its last point. -/
structure Intervals where
  first : Nat → Nat
  last : Nat → Nat
  first_le_last : ∀ n, first n ≤ last n

namespace Intervals

variable {I : Intervals} {size : Nat} {visited : List Nat}

/-- Two intervals have a point in common. -/
def Meet (I : Intervals) (n m : Nat) : Prop :=
  I.first n ≤ I.last m ∧ I.first m ≤ I.last n

instance (I : Intervals) (n m : Nat) : Decidable (I.Meet n m) :=
  inferInstanceAs (Decidable (_ ∧ _))

/-- How many of the intervals of nodes below `size` cover a point. -/
def load (I : Intervals) (size point : Nat) : Nat :=
  (List.range size).countP fun n => decide (I.first n ≤ point ∧ point ≤ I.last n)

/-- The number of visited nodes that a node meets. -/
def metBy (I : Intervals) (visited : List Nat) (n : Nat) : Nat :=
  visited.countP fun m => decide (I.Meet n m)

/-- Nodes in the order of a search, the last one in front: each of them met as many of those
    visited before it as any other node that was left. -/
inductive Searched (I : Intervals) (size : Nat) : List Nat → Prop where
  | nil : Searched I size []
  | cons {n : Nat} {visited : List Nat} (before : Searched I size visited) (hsize : n < size)
      (hnew : n ∉ visited)
      (hmost : ∀ m < size, m ∉ visited → I.metBy visited m ≤ I.metBy visited n) :
      Searched I size (n :: visited)

/-- From the last point of `a` to the first point of `b`, there is for every step a node
    that is left and goes along with it. -/
def Bridged (I : Intervals) (size : Nat) (visited : List Nat) (a b : Nat) : Prop :=
  ∀ point, I.last a ≤ point → point < I.first b →
    ∃ c < size, c ∉ visited ∧ I.first c ≤ point ∧ point < I.last c

/-- A node that meets no fewer than another one, but not all that the other one meets, meets
    something that the other one does not. -/
theorem exists_met {n c b : Nat} (hle : I.metBy visited c ≤ I.metBy visited n) (hb : b ∈ visited)
    (hc : I.Meet c b) (hn : ¬ I.Meet n b) : ∃ t ∈ visited, I.Meet n t ∧ ¬ I.Meet c t := by
  by_contra hnone
  push Not at hnone
  rcases List.append_of_mem hb with ⟨front, back, rfl⟩
  have hfront := List.countP_mono_left (l := front) (p := fun m => decide (I.Meet n m))
    (q := fun m => decide (I.Meet c m)) fun t ht hmeet =>
      decide_eq_true (hnone t (by simp [ht]) (of_decide_eq_true hmeet))
  have hback := List.countP_mono_left (l := back) (p := fun m => decide (I.Meet n m))
    (q := fun m => decide (I.Meet c m)) fun t ht hmeet =>
      decide_eq_true (hnone t (by simp [ht]) (of_decide_eq_true hmeet))
  simp only [metBy, List.countP_append, List.countP_cons, decide_eq_true hc, hn] at hle
  simp only [decide_false, if_true, Bool.false_eq_true, if_false] at hle
  omega

namespace Searched

theorem nodup (h : I.Searched size visited) : visited.Nodup := by
  induction h with
  | nil => exact List.nodup_nil
  | cons _ _ hnew _ ih => exact List.nodup_cons.mpr ⟨hnew, ih⟩

theorem lt_size (h : I.Searched size visited) : ∀ n ∈ visited, n < size := by
  induction h with
  | nil => simp
  | cons _ hsize _ _ ih =>
      intro m hm
      rcases List.mem_cons.mp hm with rfl | hm
      · exact hsize
      · exact ih m hm

/-- Between visited nodes that are apart, the nodes that are left do not lead across. -/
theorem not_bridged (h : I.Searched size visited) {a b : Nat} (ha : a ∈ visited)
    (hb : b ∈ visited) (hab : I.last a < I.first b) : ¬ I.Bridged size visited a b := by
  induction h generalizing a b with
  | nil => exact absurd ha (by simp)
  | @cons n visited _ hsize hnew hmost ih =>
      intro hbridge
      -- What is left now was left before.
      have hbefore : I.Bridged size visited a b := by
        intro point hpoint hlt
        rcases hbridge point hpoint hlt with ⟨c, hc, hleft, hcross⟩
        exact ⟨c, hc, fun hmem => hleft (List.mem_cons_of_mem _ hmem), hcross⟩
      rcases List.mem_cons.mp ha with rfl | hold
      · rcases List.mem_cons.mp hb with rfl | hold
        · have hle := I.first_le_last b
          omega
        · -- The later node is on the left. Look at what leads up to the right one.
          rcases hbefore (I.first b - 1) (by omega) (by omega) with ⟨c, hc, hleft, hcfirst, hclast⟩
          have hble := I.first_le_last b
          rcases exists_met (hmost c hc hleft) hold ⟨by omega, by omega⟩
            (fun hmeet => by have := hmeet.2; omega) with ⟨t, ht, hmeet, hapart⟩
          have htc : I.last t < I.first c := by
            have hfirst := hmeet.2
            by_contra hnot
            exact hapart ⟨by omega, by omega⟩
          refine ih ht hold (by omega) fun point hpoint hlt => ?_
          by_cases hside : I.last a ≤ point
          · exact hbefore point hside hlt
          · -- Up to its own end, the later node leads on from what it met.
            exact ⟨a, hsize, hnew, Nat.le_trans hmeet.1 hpoint, by omega⟩
      · rcases List.mem_cons.mp hb with rfl | hold'
        · -- The later node is on the right. Look at what leads away from the left one.
          rcases hbefore (I.last a) (Nat.le_refl _) hab with ⟨c, hc, hleft, hcfirst, hclast⟩
          have hale := I.first_le_last a
          rcases exists_met (hmost c hc hleft) hold ⟨by omega, by omega⟩
            (fun hmeet => by have := hmeet.1; omega) with ⟨t, ht, hmeet, hapart⟩
          have hct : I.last c < I.first t := by
            have hlast := hmeet.1
            by_contra hnot
            exact hapart ⟨by omega, by omega⟩
          refine ih hold ht (by omega) fun point hpoint hlt => ?_
          by_cases hside : point < I.first b
          · exact hbefore point hpoint hside
          · exact ⟨b, hsize, hnew, by omega, Nat.lt_of_lt_of_le hlt hmeet.2⟩
        · exact ih hold hold' hab hbefore

/-- Visited nodes that a node meets which is left meet each other. -/
theorem meet (h : I.Searched size visited) {n : Nat} (hsize : n < size) (hn : n ∉ visited)
    {a b : Nat} (ha : a ∈ visited) (hb : b ∈ visited) (hna : I.Meet n a) (hnb : I.Meet n b) :
    I.Meet a b := by
  -- If they were apart, the node itself would lead across.
  refine ⟨?_, ?_⟩
  · by_contra hnot
    refine h.not_bridged hb ha (by omega) fun point hpoint hlt => ?_
    exact ⟨n, hsize, hn, Nat.le_trans hnb.1 hpoint, Nat.lt_of_lt_of_le hlt hna.2⟩
  · by_contra hnot
    refine h.not_bridged ha hb (by omega) fun point hpoint hlt => ?_
    exact ⟨n, hsize, hn, Nat.le_trans hna.1 hpoint, Nat.lt_of_lt_of_le hlt hnb.2⟩

end Searched

/-- Intervals that meet one another all cover the point where the last of them starts. -/
theorem exists_common {nodes : List Nat} (hne : nodes ≠ [])
    (hmeet : ∀ a ∈ nodes, ∀ b ∈ nodes, I.Meet a b) :
    ∃ n ∈ nodes, ∀ m ∈ nodes, I.first m ≤ I.first n ∧ I.first n ≤ I.last m := by
  have hlast : ∃ n ∈ nodes, ∀ m ∈ nodes, I.first m ≤ I.first n := by
    clear hmeet
    induction nodes with
    | nil => exact absurd rfl hne
    | cons a nodes ih =>
        by_cases hnil : nodes = []
        · exact ⟨a, List.mem_cons_self, by simp [hnil]⟩
        · rcases ih hnil with ⟨n, hn, hall⟩
          by_cases hle : I.first a ≤ I.first n
          · refine ⟨n, List.mem_cons_of_mem _ hn, fun m hm => ?_⟩
            rcases List.mem_cons.mp hm with rfl | hm
            · exact hle
            · exact hall m hm
          · refine ⟨a, List.mem_cons_self, fun m hm => ?_⟩
            rcases List.mem_cons.mp hm with rfl | hm
            · exact Nat.le_refl _
            · have hless := hall m hm
              omega
  rcases hlast with ⟨n, hn, hall⟩
  exact ⟨n, hn, fun m hm => ⟨hall m hm, (hmeet n hn m hm).1⟩⟩

/-- Different nodes whose intervals cover a point count for its load. -/
theorem length_le_load {nodes : List Nat} (hnodup : nodes.Nodup) {point : Nat}
    (hnodes : ∀ n ∈ nodes, n < size ∧ I.first n ≤ point ∧ point ≤ I.last n) :
    nodes.length ≤ I.load size point := by
  rw [load, List.countP_eq_length_filter]
  refine (List.subperm_of_subset hnodup fun n hn => ?_).length_le
  rcases hnodes n hn with ⟨hsize, hcovers⟩
  exact List.mem_filter.mpr ⟨List.mem_range.mpr hsize, decide_eq_true hcovers⟩

end Intervals

namespace Plain

variable {g : Interference M} {t : Plain M} {todo : List Nat}

/-- What visiting the next node preserves holds after all visits. -/
theorem run_inv {P : List Nat → Plain M → Prop}
    (hvisit : ∀ todo t n, P todo t → g.mostColored? t.colors todo = some n →
      P (todo.erase n) (t.visit g n)) (h : P todo t) : ∃ rest, P rest (t.run g todo) := by
  fun_induction Plain.run g todo t with
  | case1 todo t hnone => exact ⟨todo, h⟩
  | case2 todo t n hnext ih => exact ih (hvisit todo t n h hnext)

end Plain

namespace Interference

variable {g : Interference M} {I : Intervals} {c : M.Class}

/-- The links of a graph are between the nodes whose intervals meet. -/
def DrawnBy (g : Interference M) (I : Intervals) : Prop :=
  ∀ n < g.size, ∀ m, m ∈ g.neighbors n ↔ m < g.size ∧ n ≠ m ∧ I.Meet n m

theorem length_le_of_mostColored {colors : Nat → Option M.Reg} {todo : List Nat} {n m : Nat}
    (h : g.mostColored? colors todo = some n) (hm : m ∈ todo) :
    (g.coloredBeside colors m).length ≤ (g.coloredBeside colors n).length := by
  have hall := List.find?_some h
  exact of_decide_eq_true (List.all_eq_true.mp hall m hm)

/-- All nodes visited so far are colored, and the search has visited them in this order. -/
structure SearchedBy (g : Interference M) (I : Intervals) (visited todo : List Nat)
    (t : Plain M) : Prop where
  searched : I.Searched g.size visited
  colored : ∀ n, (t.colors n).isSome = true ↔ n ∈ visited
  left : ∀ n, n ∈ todo ↔ n < g.size ∧ n ∉ visited
  nodup : todo.Nodup
  failures : t.failures = []

namespace SearchedBy

variable {visited todo : List Nat} {t : Plain M}

theorem mem_coloredBeside (h : g.SearchedBy I visited todo t) (hI : g.DrawnBy I) {n : Nat}
    (hn : n ∈ todo) {m : Nat} :
    m ∈ g.coloredBeside t.colors n ↔ m ∈ visited ∧ I.Meet n m := by
  rcases (h.left n).mp hn with ⟨hsize, hnew⟩
  rw [coloredBeside, List.mem_filter, h.colored, hI n hsize m]
  constructor
  · rintro ⟨⟨_, _, hmeet⟩, hm⟩
    exact ⟨hm, hmeet⟩
  · rintro ⟨hm, hmeet⟩
    refine ⟨⟨h.searched.lt_size m hm, ?_, hmeet⟩, hm⟩
    rintro rfl
    exact hnew hm

/-- The number of colored neighbours is the number of visited nodes that a node meets. -/
theorem length_coloredBeside (h : g.SearchedBy I visited todo t) (hI : g.DrawnBy I)
    (hnodup : ∀ n, (g.neighbors n).Nodup) {n : Nat} (hn : n ∈ todo) :
    (g.coloredBeside t.colors n).length = I.metBy visited n := by
  rw [Intervals.metBy, List.countP_eq_length_filter]
  refine ((List.perm_ext_iff_of_nodup ((hnodup n).filter _)
    (h.searched.nodup.filter _)).mpr fun m => ?_).length_eq
  have hmem := h.mem_coloredBeside hI hn (m := m)
  rw [coloredBeside] at hmem
  rw [hmem, List.mem_filter, decide_eq_true_eq]

/-- A node and its colored neighbours meet one another. -/
theorem meet (h : g.SearchedBy I visited todo t) (hI : g.DrawnBy I) {n : Nat} (hn : n ∈ todo) :
    ∀ a ∈ n :: g.coloredBeside t.colors n, ∀ b ∈ n :: g.coloredBeside t.colors n, I.Meet a b := by
  rcases (h.left n).mp hn with ⟨hsize, hnew⟩
  intro a ha b hb
  rcases List.mem_cons.mp ha with rfl | ha
  · rcases List.mem_cons.mp hb with rfl | hb
    · exact ⟨I.first_le_last _, I.first_le_last _⟩
    · exact ((h.mem_coloredBeside hI hn).mp hb).2
  · rcases (h.mem_coloredBeside hI hn).mp ha with ⟨hamem, hmeeta⟩
    rcases List.mem_cons.mp hb with rfl | hb
    · exact ⟨hmeeta.2, hmeeta.1⟩
    · -- Two colored neighbours meet because of the order of the search.
      rcases (h.mem_coloredBeside hI hn).mp hb with ⟨hbmem, hmeetb⟩
      exact h.searched.meet hsize hnew hamem hbmem hmeeta hmeetb

/-- A node and its colored neighbours cover a point that one of them starts at. -/
theorem exists_load (h : g.SearchedBy I visited todo t) (hI : g.DrawnBy I)
    (hnodup : ∀ n, (g.neighbors n).Nodup) {n : Nat} (hn : n ∈ todo) :
    ∃ m < g.size, (g.coloredBeside t.colors n).length < I.load g.size (I.first m) := by
  rcases (h.left n).mp hn with ⟨hsize, hnew⟩
  have hmem := fun m => h.mem_coloredBeside hI hn (m := m)
  have hlt : ∀ m ∈ n :: g.coloredBeside t.colors n, m < g.size := by
    intro m hm
    rcases List.mem_cons.mp hm with rfl | hm
    · exact hsize
    · exact h.searched.lt_size m ((hmem m).mp hm).1
  have hdistinct : (n :: g.coloredBeside t.colors n).Nodup :=
    List.nodup_cons.mpr ⟨fun hbeside => hnew ((hmem n).mp hbeside).1, (hnodup n).filter _⟩
  rcases Intervals.exists_common (List.cons_ne_nil _ _) (h.meet hI hn) with ⟨m, hm, hcommon⟩
  exact ⟨m, hlt m hm, Intervals.length_le_load hdistinct fun a ha => ⟨hlt a ha, hcommon a ha⟩⟩

/-- Coloring the next node goes on with the search. -/
theorem visit (h : g.SearchedBy I visited todo t) (hI : g.DrawnBy I)
    (hnodup : ∀ n, (g.neighbors n).Nodup) {n : Nat}
    (hnext : g.mostColored? t.colors todo = some n) {p : M.Reg}
    (hp : g.firstFree? t.colors n = some p) :
    g.SearchedBy I (n :: visited) (todo.erase n) (t.visit g n) := by
  have hn : n ∈ todo := List.mem_of_find?_eq_some hnext
  rcases (h.left n).mp hn with ⟨hsize, hnew⟩
  unfold Plain.visit
  rw [hp]
  refine ⟨.cons h.searched hsize hnew fun m hm hmnew => ?_, fun m => ?_, fun m => ?_,
    h.nodup.erase n, h.failures⟩
  · have hmtodo := (h.left m).mpr ⟨hm, hmnew⟩
    rw [← h.length_coloredBeside hI hnodup hmtodo, ← h.length_coloredBeside hI hnodup hn]
    exact length_le_of_mostColored hnext hmtodo
  · by_cases hmn : m = n
    · simp [hmn]
    · simp [hmn, h.colored]
  · rw [h.nodup.mem_erase_iff, h.left, List.mem_cons, not_or]
    tauto

end SearchedBy

/-- With fewer colored neighbours than registers, one register is free. -/
theorem exists_firstFree (hM : M.Disjoint) (hmembers : (M.members c).Nodup)
    {colors : Nat → Option M.Reg} {n : Nat} (hclass : g.class? n = some c)
    (hfew : (g.coloredBeside colors n).length < (M.members c).length) :
    ∃ p, g.firstFree? colors n = some p := by
  rw [← Option.isSome_iff_exists, ← Option.not_isNone, Bool.not_eq_true', ← Bool.not_eq_true]
  intro hnone
  rw [Option.isNone_iff_eq_none, firstFree?, hclass, Option.bind_some, List.find?_eq_none] at hnone
  -- Otherwise every register is the color of a neighbour.
  have hsub : M.members c ⊆ (g.coloredBeside colors n).filterMap colors := by
    intro p hp
    have htaken := hnone p hp
    rw [Bool.not_eq_true, List.all_eq_false] at htaken
    rcases htaken with ⟨m, hm, htaken⟩
    cases hq : colors m with
    | none => exact absurd (by simp [hq]) htaken
    | some q =>
        have halias : Machine.aliases q p = true := by simpa [hq] using htaken
        obtain rfl := hM q p (Machine.aliases_iff.mp halias)
        exact List.mem_filterMap.mpr ⟨m, List.mem_filter.mpr ⟨hm, by simp [hq]⟩, hq⟩
  have hle := (List.subperm_of_subset hmembers hsub).length_le
  have hle' := List.length_filterMap_le colors (g.coloredBeside colors n)
  omega

/-- Nodes that have different registers of a class are no more than the class has. -/
theorem length_le_members {nodes : List Nat} {colors : Nat → Option M.Reg} (hnodup : nodes.Nodup)
    (hcolors : ∀ n ∈ nodes, ∃ p, colors n = some p ∧ p ∈ M.members c)
    (hdiffer : ∀ n ∈ nodes, ∀ m ∈ nodes, colors n = colors m → n = m) :
    nodes.length ≤ (M.members c).length := by
  have hsub : nodes.map colors ⊆ (M.members c).map some := by
    intro o ho
    rcases List.mem_map.mp ho with ⟨n, hn, rfl⟩
    rcases hcolors n hn with ⟨p, hp, hmem⟩
    exact List.mem_map.mpr ⟨p, hmem, hp.symm⟩
  have hdistinct := (List.nodup_map_iff_inj_on hnodup).mpr hdiffer
  have hle := (List.subperm_of_subset hdistinct hsub).length_le
  rwa [List.length_map, List.length_map] at hle

section Colors

variable (hg : g.Mutual) (hown : ∀ n, g.own? n = none) (hclass : ∀ n < g.size, g.class? n = some c)
  (hI : g.DrawnBy I)
include hg hown hclass hI

/-- In a complete coloring, no more intervals cover a point than there are registers. -/
theorem load_le {colors : Assignment M} (hcolors : g.color = .ok (.complete colors))
    (point : Nat) : I.load g.size point ≤ (M.members c).length := by
  rcases color_complete hg hcolors with ⟨_, hall, hapart⟩
  have hcolor : ∀ n < g.size, ∃ p, colors.lookup n = some p ∧ p ∈ M.members c := by
    intro n hn
    rcases hall n hn (by simp [hclass n hn]) with ⟨p, hp⟩
    rcases exists_class_of_color hcolors hp (hown n) with ⟨d, hd, hmem⟩
    rw [hclass n hn, Option.some.injEq] at hd
    exact ⟨p, hp, hd ▸ hmem⟩
  rw [Intervals.load, List.countP_eq_length_filter]
  have hcovers : ∀ n ∈ (List.range g.size).filter
      (fun n => decide (I.first n ≤ point ∧ point ≤ I.last n)),
      n < g.size ∧ I.first n ≤ point ∧ point ≤ I.last n := by
    intro n hn
    rwa [List.mem_filter, List.mem_range, decide_eq_true_eq] at hn
  refine length_le_members (List.nodup_range.filter _) (fun n hn => hcolor n (hcovers n hn).1) ?_
  -- Nodes that cover the point are linked, so their registers are different.
  intro n hn m hm heq
  by_contra hne
  rcases hcovers n hn with ⟨hnsize, hnfirst, hnlast⟩
  rcases hcovers m hm with ⟨hmsize, hmfirst, hmlast⟩
  have hlink : m ∈ g.neighbors n := (hI n hnsize m).mpr ⟨hmsize, hne, by omega, by omega⟩
  rcases hcolor n hnsize with ⟨p, hp, _⟩
  have hdiffer := hapart n m p p hlink hp (heq ▸ hp) (Or.inl (hown n))
  rw [Machine.aliases_refl] at hdiffer
  exact absurd hdiffer (by simp)

/-- If no more intervals cover a point than there are registers, the coloring is complete. -/
theorem exists_complete (hnodup : ∀ n, (g.neighbors n).Nodup) (hM : M.Disjoint)
    (hmembers : (M.members c).Nodup)
    (hload : ∀ n < g.size, I.load g.size (I.first n) ≤ (M.members c).length) :
    ∃ colors, g.color = .ok (.complete colors) := by
  have hplain : g.color = .ok g.plainColoring := by
    refine color_eq_plain hg hnodup (fun n hn _ => by simp [hclass n hn]) fun n p q hp => ?_
    exact absurd ⟨p, hp⟩ (own_eq_none_iff.mp (hown n))
  have hstart : g.SearchedBy I [] ((List.range g.size).filter fun n => (g.own? n).isNone)
      ⟨g.own?, []⟩ := by
    refine ⟨.nil, fun n => by simp [hown n], fun n => by simp [hown n], ?_, rfl⟩
    exact List.nodup_range.filter _
  have hvisit : ∀ todo t n, (∃ visited, g.SearchedBy I visited todo t) →
      g.mostColored? t.colors todo = some n →
        ∃ visited, g.SearchedBy I visited (todo.erase n) (t.visit g n) := by
    rintro todo t n ⟨visited, h⟩ hnext
    have hn : n ∈ todo := List.mem_of_find?_eq_some hnext
    rcases h.exists_load hI hnodup hn with ⟨m, hm, hless⟩
    rcases exists_firstFree hM hmembers (hclass n ((h.left n).mp hn).1)
      (Nat.lt_of_lt_of_le hless (hload m hm)) with ⟨p, hp⟩
    exact ⟨n :: visited, h.visit hI hnodup hnext hp⟩
  rcases Plain.run_inv hvisit ⟨[], hstart⟩ with ⟨rest, visited, hfinal⟩
  rw [hplain, plainColoring, hfinal.failures]
  exact ⟨_, rfl⟩

end Colors

end Interference

end RegisterColoring
