import RegisterColoring.Proofs.SharedStorage

/-!
# Complete Colorings

What a complete coloring of an analysed function is, said about its nodes: each has one
register, which is its own if it came with one and otherwise one that its class allows,
and linked nodes have registers apart unless both came with theirs. The links are spelled
out as well, by what the nodes hold and where their registers are live.

A node is colored in the class of the first virtual register that it lists. Groups are
read off a list in ascending order, so that this is the lowest one, and no group is
empty, so that every node has a register of its own or a class.

## Main definitions

* `Interference.HoldsPhysical`: A node came with a register of the machine.
* `Liveness.LiveTogether`: Ranges of two nodes overlap.
* `Register.Lowest`: The lowest virtual register of a list.
* `Liveness.ColoredBy`: A complete and proper coloring.

## Theorems

* `Greedy.Allowed.process`, `Greedy.Allowed.steps`: Every color comes from the class of its
  node.
* `Liveness.isLinked_iff`: Which nodes are linked.
* `Function.coloredBy_of_complete`: Complete colorings are proper, and which nodes are
  linked.
-/

namespace RegisterColoring

variable {M : Machine}

/-- The lowest virtual register of a list. -/
def Register.Lowest (regs : List (Register M)) (v : VReg M) : Prop :=
  .virtual v ∈ regs ∧ ∀ w, .virtual w ∈ regs → w = v ∨ v.before w = true

/-- In an ascending list, the virtual register that is found first is the lowest. -/
theorem Register.lowest_of_findSome {regs : List (Register M)} {v : VReg M}
    (hsorted : regs.Pairwise fun r s => r.before s = true)
    (h : regs.findSome? Register.virtual? = some v) : Register.Lowest regs v := by
  rcases List.findSome?_eq_some_iff.mp h with ⟨front, r, back, rfl, hr, hfront⟩
  obtain rfl : r = .virtual v := by
    cases r with
    | virtual w => exact congrArg Register.virtual (Option.some.inj hr)
    | physical p => exact absurd hr (by simp [virtual?])
  refine ⟨by simp, fun w hw => ?_⟩
  -- In front of it there are no virtual registers, and behind it only higher ones.
  rcases List.mem_append.mp hw with hw | hw
  · exact absurd (hfront _ hw) (by simp [virtual?])
  · rcases List.mem_cons.mp hw with heq | hw
    · exact Or.inl (Register.virtual.inj heq)
    · have hafter := (List.pairwise_append.mp hsorted).2.1
      exact Or.inr ((List.pairwise_cons.mp hafter).1 _ hw)

namespace Greedy

variable {g : Interference M} {own : Assignment M} {s : Greedy M}

/-- A color is the register that the node holds itself, or one that its class allows. -/
def Allowed (g : Interference M) (own : Assignment M) (s : Greedy M) : Prop :=
  ∀ n p, s.colors.lookup n = some p →
    own.lookup n = some p ∨ ∃ c, g.class? n = some c ∧ p ∈ M.members c

theorem Allowed.process (h : Allowed g own s) (n : Nat) : Allowed g own (s.process g n) := by
  unfold Greedy.process
  cases hclass : g.class? n with
  | none => exact h
  | some c =>
      cases hfree : freeRegister? s.colors (g.neighbors n) c with
      | none =>
          simp only [hfree]
          exact h
      | some p =>
          simp only [hfree]
          intro m q hq
          -- The only new color is that of the node.
          rw [lookup_cons] at hq
          by_cases hm : m = n
          · rw [if_pos hm, Option.some.injEq] at hq
            exact Or.inr ⟨c, hm ▸ hclass, hq ▸ List.mem_of_find?_eq_some hfree⟩
          · rw [if_neg hm] at hq
            exact h m q hq

theorem Allowed.steps (h : Allowed g own s) (k : Nat) : Allowed g own (s.steps g k) :=
  steps_inv (fun _ n _ hs => hs.process n) k h

/-- If all nodes have colors, the colors list every node once. -/
theorem map_fst_colorsUpTo {size : Nat} (h : ∀ n < size, ∃ p, s.colors.lookup n = some p) :
    (s.colorsUpTo size).map Prod.fst = List.range size := by
  unfold colorsUpTo
  induction size with
  | zero => rfl
  | succ k ih =>
      rcases h k (by omega) with ⟨p, hp⟩
      have hlast : ([k].filterMap fun n => (s.colors.lookup n).map fun p => (n, p)) = [(k, p)] := by
        simp [hp]
      rw [List.range_succ, List.filterMap_append, List.map_append, hlast,
        ih fun n hn => h n (by omega)]
      rfl

end Greedy

namespace Interference

variable {g : Interference M} {colors : Assignment M}

/-- A node that came with a register of the machine. -/
def HoldsPhysical (g : Interference M) (n : Nat) : Prop :=
  ∃ p, .physical p ∈ g.regs n

theorem own_eq_none_iff {n : Nat} : g.own? n = none ↔ ¬ g.HoldsPhysical n := by
  unfold own? HoldsPhysical
  rw [List.head?_eq_none_iff, List.filterMap_eq_nil_iff, not_exists]
  constructor
  · intro hnone p hp
    exact absurd (hnone _ hp) (by simp [Register.physical?])
  · intro hnone r hr
    cases r with
    | virtual v => rfl
    | physical p => exact absurd hr (hnone p)

/-- A complete coloring comes from the state after all steps. -/
theorem exists_final (h : g.color = .ok (.complete colors)) :
    ∃ own, precolor 0 (g.nodes.toList.map fun node => node.label.regs) = .ok own ∧
      colors = ((g.start own).steps g (g.start own).waiting.length).colorsUpTo g.size := by
  rw [color_eq, colorByCounts] at h
  cases hown : precolor 0 (g.nodes.toList.map fun node => node.label.regs) with
  | error cause => rw [hown] at h; exact absurd h (by simp [bind, Except.bind])
  | ok own =>
      rw [hown] at h
      simp only [bind, Except.bind, pure, Except.pure, Except.ok.injEq] at h
      split at h
      · exact ⟨own, rfl, (Coloring.complete.inj h).symm⟩
      · exact absurd h (by simp)

/-- A node without a register of its own gets one that its class allows. -/
theorem exists_class_of_color (h : g.color = .ok (.complete colors)) {n : Nat} {p : M.Reg}
    (hp : colors.lookup n = some p) (hown : g.own? n = none) :
    ∃ c, g.class? n = some c ∧ p ∈ M.members c := by
  rcases exists_final h with ⟨own, hprecolor, rfl⟩
  rw [Greedy.lookup_colorsUpTo] at hp
  split at hp
  · have hstart : Greedy.Allowed g own (g.start own) := fun n p hp => Or.inl hp
    rcases hstart.steps _ n p hp with hheld | hclass
    · rw [lookup_own hprecolor, hown] at hheld
      exact absurd hheld (by simp)
    · exact hclass
  · exact absurd hp (by simp)

end Interference

namespace Liveness

variable {l : Liveness M} {colors : Assignment M}

/-- A range of a register of one node overlaps a range of a register of the other. -/
def LiveTogether (l : Liveness M) (n m : Nat) : Prop :=
  ∃ r ∈ l.interference.regs n, ∃ d ∈ l.interference.regs m,
    ∃ a ∈ l.rangesOf r, ∃ b ∈ l.rangesOf d, a.overlaps b = true

theorem holdsPhysical_iff (regs : List (Register M)) (ranges : List LiveRange) :
    Group.holdsPhysical ⟨regs, ranges⟩ = true ↔ ∃ p, .physical p ∈ regs := by
  unfold Group.holdsPhysical
  rw [List.any_eq_true]
  constructor
  · rintro ⟨r, hr, hphysical⟩
    cases r with
    | virtual v => exact absurd hphysical (by simp [Register.isVirtual])
    | physical p => exact ⟨p, hr⟩
  · rintro ⟨p, hp⟩
    exact ⟨_, hp, rfl⟩

/-- Two nodes are linked if both came with registers of the machine or if they are live
    together. -/
theorem isLinked_iff {n m : Nat} : l.interference.isLinked n m = true ↔
    n ≠ m ∧ (l.interference.HoldsPhysical n ∧ l.interference.HoldsPhysical m ∨
      l.LiveTogether n m) := by
  rw [Digraph.isLinked, List.contains_iff_mem]
  refine mem_succ_ofRelation.trans ?_
  simp only [List.getElem?_map, Option.map_eq_some_iff]
  constructor
  · rintro ⟨_, _, ⟨group, hn, rfl⟩, ⟨group', hm, rfl⟩, hne, hclash⟩
    refine ⟨hne, ?_⟩
    unfold Interference.HoldsPhysical LiveTogether
    rw [regs_interference hn, regs_interference hm]
    rw [Group.clashes, Bool.or_eq_true, Bool.and_eq_true, holdsPhysical_iff, holdsPhysical_iff]
      at hclash
    refine hclash.imp id fun hoverlap => ?_
    rcases List.any_eq_true.mp hoverlap with ⟨a, ha, hoverlap⟩
    rcases List.any_eq_true.mp hoverlap with ⟨b, hb, hoverlap⟩
    rcases List.mem_flatMap.mp ha with ⟨r, hr, ha⟩
    rcases List.mem_flatMap.mp hb with ⟨d, hd, hb⟩
    exact ⟨r, hr, d, hd, a, ha, b, hb, hoverlap⟩
  · rintro ⟨hne, hlinked⟩
    -- Whatever links them, both nodes hold a register, so both are there.
    have hheld : (∃ r, r ∈ l.interference.regs n) ∧ ∃ d, d ∈ l.interference.regs m := by
      rcases hlinked with ⟨⟨p, hp⟩, ⟨q, hq⟩⟩ | ⟨r, hr, d, hd, _⟩
      · exact ⟨⟨_, hp⟩, ⟨_, hq⟩⟩
      · exact ⟨⟨r, hr⟩, ⟨d, hd⟩⟩
    rcases hheld with ⟨⟨r₀, hr₀⟩, ⟨d₀, hd₀⟩⟩
    rcases exists_group_of_mem_regs hr₀ with ⟨group, hn, _⟩
    rcases exists_group_of_mem_regs hd₀ with ⟨group', hm, _⟩
    refine ⟨_, _, ⟨group, hn, rfl⟩, ⟨group', hm, rfl⟩, hne, ?_⟩
    unfold Interference.HoldsPhysical LiveTogether at hlinked
    rw [regs_interference hn, regs_interference hm] at hlinked
    rw [Group.clashes, Bool.or_eq_true, Bool.and_eq_true, holdsPhysical_iff, holdsPhysical_iff]
    refine hlinked.imp id ?_
    rintro ⟨r, hr, d, hd, a, ha, b, hb, hoverlap⟩
    refine List.any_eq_true.mpr ⟨a, List.mem_flatMap.mpr ⟨r, hr, ha⟩, ?_⟩
    exact List.any_eq_true.mpr ⟨b, List.mem_flatMap.mpr ⟨d, hd, hb⟩, hoverlap⟩

/-- The colors are a complete and proper coloring of the interference graph. -/
structure ColoredBy (l : Liveness M) (colors : Assignment M) : Prop where
  /-- Every node has a register, and nothing else has. -/
  nodes : colors.map Prod.fst = List.range l.interference.size
  /-- A node that came with a register keeps it. -/
  kept : ∀ n p q, colors.lookup n = some p → .physical q ∈ l.interference.regs n → p = q
  /-- Any other node gets a register of the class of its lowest virtual register. -/
  allowed : ∀ n p, colors.lookup n = some p → ¬ l.interference.HoldsPhysical n →
    ∃ v, Register.Lowest (l.interference.regs n) v ∧ p ∈ M.members v.cls
  /-- Linked nodes have registers apart, unless both came with theirs. -/
  apart : ∀ n m p q, l.interference.isLinked n m = true → colors.lookup n = some p →
    colors.lookup m = some q →
      ¬ (l.interference.HoldsPhysical n ∧ l.interference.HoldsPhysical m) →
        Machine.aliases p q = false

end Liveness

namespace Function

variable {f : Function M} {l : Liveness M} {colors : Assignment M}

/-- The registers of a node are in order, and there is at least one. -/
theorem pairwise_group (hl : f.liveness = .ok l) {n : Nat} {group : List (Register M)}
    (hn : l.groups[n]? = some group) :
    group.Pairwise (fun r s => r.before s = true) ∧ group ≠ [] := by
  rw [groups_eq_gather hl] at hn
  rcases sublist_of_mem_gather (List.mem_of_getElem? hn) with ⟨hsub, hne⟩
  exact ⟨(pairwise_ascending Register.before_trans _).sublist hsub, hne⟩

/-- A complete coloring leaves out no node. -/
theorem exists_color_of_lt (hl : f.liveness = .ok l)
    (hcolors : l.interference.color = .ok (.complete colors)) {n : Nat}
    (hn : n < l.interference.size) : ∃ p, colors.lookup n = some p := by
  rw [Liveness.size_interference] at hn
  have hgroup := List.getElem?_eq_getElem hn
  rcases List.exists_mem_of_ne_nil _ (pairwise_group hl hgroup).2 with ⟨r, hr⟩
  cases r with
  | physical p => exact ⟨p, (lookup_of_physical hcolors hgroup hr).2⟩
  | virtual v =>
      rcases exists_place hl hcolors ⟨_, List.mem_of_getElem? hgroup, hr⟩ with
        ⟨m, group, p, hm, hv, hp, _⟩
      obtain rfl := group_unique hl hgroup hr hm hv (.refl _)
      exact ⟨p, hp⟩

/-- A complete coloring of an analysed function is proper. -/
theorem coloredBy_of_color (hl : f.liveness = .ok l)
    (hcolors : l.interference.color = .ok (.complete colors)) : l.ColoredBy colors := by
  have hsome := fun n => exists_color_of_lt hl hcolors (n := n)
  rcases Interference.color_complete l.mutual_interference hcolors with ⟨_, _, hapart⟩
  refine ⟨?_, fun n p q hp hq => ?_, fun n p hp hfree => ?_, fun n m p q hlink hp hq hone => ?_⟩
  · rcases Interference.exists_final hcolors with ⟨own, _, rfl⟩
    refine Greedy.map_fst_colorsUpTo fun n hn => ?_
    rcases hsome n hn with ⟨p, hp⟩
    rw [Greedy.lookup_colorsUpTo, if_pos hn] at hp
    exact ⟨p, hp⟩
  · rcases Liveness.exists_group_of_mem_regs hq with ⟨group, hn, hq⟩
    have hkept := (lookup_of_physical hcolors hn hq).2
    rw [hp, Option.some.injEq] at hkept
    exact hkept
  · rcases Interference.exists_class_of_color hcolors hp (Interference.own_eq_none_iff.mpr hfree)
      with ⟨c, hclass, hmem⟩
    rcases Option.bind_eq_some_iff.mp hclass with ⟨label, hlabel, hfirst⟩
    rw [Liveness.label_interference, Option.map_eq_some_iff] at hlabel
    rcases hlabel with ⟨group, hn, rfl⟩
    -- The class is that of the virtual register that the group lists first.
    rcases Option.map_eq_some_iff.mp hfirst with ⟨v, hv, rfl⟩
    refine ⟨v, ?_, hmem⟩
    rw [Liveness.regs_interference hn]
    exact Register.lowest_of_findSome (pairwise_group hl hn).1 hv
  · refine hapart n m p q (List.contains_iff_mem.mp hlink) hp hq ?_
    rw [Interference.own_eq_none_iff, Interference.own_eq_none_iff]
    exact not_and_or.mp hone

/-- Every complete coloring of an analysed function is proper. Two nodes are linked exactly
    if both came with registers of the machine or if they are live together, and links go
    both ways. -/
theorem coloredBy_of_complete (hl : f.liveness = .ok l) :
    (∀ colors, l.interference.color = .ok (.complete colors) → l.ColoredBy colors) ∧
      (∀ n m, l.interference.isLinked n m = true ↔
        n ≠ m ∧ (l.interference.HoldsPhysical n ∧ l.interference.HoldsPhysical m ∨
          l.LiveTogether n m)) ∧
      ∀ n m, l.interference.isLinked n m = l.interference.isLinked m n := by
  refine ⟨fun _ => coloredBy_of_color hl, fun n m => Liveness.isLinked_iff, fun n m => ?_⟩
  rw [Bool.eq_iff_iff, Digraph.isLinked, Digraph.isLinked, List.contains_iff_mem,
    List.contains_iff_mem]
  exact ⟨l.mutual_interference.symm n m, l.mutual_interference.symm m n⟩

/-- A value beside a register of the machine, whose family it has to avoid. -/
theorem besideRegister_coloredBy :
    ∃ l, besideRegister.liveness = .ok l ∧
      l.interference.color = .ok (.complete [(0, X86Reg.cx), (1, X86Reg.ax), (2, X86Reg.eax)]) ∧
      l.ColoredBy [(0, X86Reg.cx), (1, X86Reg.ax), (2, X86Reg.eax)] ∧
      l.interference.isLinked 0 2 = true ∧ l.LiveTogether 0 2 := by
  have hall := coloredBy_of_complete (f := besideRegister) rfl
  refine ⟨_, rfl, rfl, hall.1 _ rfl, rfl, ?_⟩
  -- The first node came with no register, so its links are by ranges.
  rcases ((hall.2.1 0 2).mp rfl).2 with hphysical | hlive
  · exact absurd hphysical.1 (Interference.own_eq_none_iff.mp rfl)
  · exact hlive

end Function

end RegisterColoring
