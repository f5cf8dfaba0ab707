import RegisterColoring.Proofs.Placement
import RegisterColoring.Proofs.SpillOrder

/-!
# What a Stuck Coloring Blames

A coloring that is stuck has met a node for which no register was free. Each register of
its class was then taken by a colored neighbour, and the node and all its colored
neighbours are blamed. On a machine whose registers do not overlap, a neighbour takes one
register only, so there are at least as many blamed neighbours as the class has registers.

Spilling looks for a register among the blamed nodes that is not excluded. Counting gives
a reason for one to be there: if a node has fewer excluded neighbours than its class has
registers, it was not blocked by excluded registers alone.

## Main definitions

* `Interference.Blocked`: A blamed node all of whose registers are taken by blamed nodes.
* `Greedy.Accounted`: What every step keeps true of the blames.

## Theorems

* `Greedy.Accounted.process`, `Greedy.Accounted.steps`: One step, and all of them.
* `Interference.color_stuck`: What a stuck coloring tells.
* `Interference.Blocked.exists_not`: Something else than excluded nodes is blamed.
* `selectSpill_eq_ok`, `exists_selectSpill`: The register to spill.
-/

namespace RegisterColoring

variable {M : Machine}

/-- A blamed node to which every register of its class was denied by a blamed neighbour. -/
def Interference.Blocked (g : Interference M) (blames : List (Nat × Nat)) : Prop :=
  ∃ n c, ∃ colors : Assignment M, g.class? n = some c ∧ n ∈ blames.map Prod.fst ∧
    ∀ p ∈ M.members c, ∃ m ∈ g.neighbors n, m ∈ blames.map Prod.fst ∧
      ∃ q, colors.lookup m = some q ∧ Machine.aliases q p = true

theorem mem_blame {n m : Nat} {blames : List (Nat × Nat)} :
    m ∈ (blame n blames).map Prod.fst ↔ m = n ∨ m ∈ blames.map Prod.fst := by
  induction blames with
  | nil => simp [blame]
  | cons entry rest ih =>
      obtain ⟨k, count⟩ := entry
      unfold blame
      split
      · simp
      · split
        · rename_i hnk
          simp [hnk]
        · rw [List.map_cons, List.mem_cons, ih, List.map_cons, List.mem_cons]
          exact or_left_comm

theorem mem_foldl_blame {m : Nat} {nodes : List Nat} {blames : List (Nat × Nat)} :
    m ∈ (nodes.foldl (fun blames n => blame n blames) blames).map Prod.fst ↔
      m ∈ nodes ∨ m ∈ blames.map Prod.fst := by
  induction nodes generalizing blames with
  | nil => simp
  | cons n nodes ih =>
      rw [List.foldl_cons, ih, mem_blame, List.mem_cons]
      tauto

namespace Greedy

variable {g : Interference M} {s : Greedy M}

/-- What coloring keeps true of its blames. -/
structure Accounted (g : Interference M) (s : Greedy M) : Prop where
  blocked : s.blames ≠ [] → g.Blocked s.blames
  blames : ∀ n ∈ s.blames.map Prod.fst, n < g.size
  waiting : ∀ n ∈ s.waiting.map Prod.fst, n < g.size

/-- Where no register is free, a neighbour has one that aliases any given one. -/
theorem taken_of_freeRegister {colors : Assignment M} {neighbors : List Nat} {c : M.Class}
    (h : freeRegister? colors neighbors c = none) {p : M.Reg} (hp : p ∈ M.members c) :
    ∃ m ∈ neighbors, ∃ q, colors.lookup m = some q ∧ Machine.aliases q p = true := by
  rw [freeRegister_eq_find] at h
  have htaken := List.find?_eq_none.mp h p hp
  rw [List.all_eq_true] at htaken
  push Not at htaken
  rcases htaken with ⟨q, hq, halias⟩
  rcases List.mem_filterMap.mp hq with ⟨m, hm, hlook⟩
  exact ⟨m, hm, q, hlook, by simpa using halias⟩

/-- Processing a waiting node keeps the account of blames. -/
theorem Accounted.process (hg : g.Mutual) (h : Accounted g s) {n : Nat}
    (hn : n ∈ s.waiting.map Prod.fst) : Accounted g (s.process g n) := by
  have hwaiting : ∀ m ∈ (s.process g n).waiting.map Prod.fst, m < g.size := by
    intro m hm
    rw [map_fst_waiting_process, mem_filter_waiting] at hm
    exact h.waiting m hm.1
  unfold Greedy.process at hwaiting ⊢
  cases hclass : g.class? n with
  | none =>
      simp only [hclass] at hwaiting
      exact ⟨h.blocked, h.blames, hwaiting⟩
  | some c =>
      cases hfree : freeRegister? s.colors (g.neighbors n) c with
      | some p =>
          simp only [hclass, hfree] at hwaiting ⊢
          exact ⟨h.blocked, h.blames, hwaiting⟩
      | none =>
          -- The node is blocked now, whatever was blocked before.
          simp only [hclass, hfree] at hwaiting ⊢
          refine ⟨fun _ => ⟨n, c, s.colors, hclass, ?_, fun p hp => ?_⟩, fun m hm => ?_, hwaiting⟩
          · exact mem_foldl_blame.mpr (Or.inl List.mem_cons_self)
          · rcases taken_of_freeRegister hfree hp with ⟨m, hm, q, hq, halias⟩
            refine ⟨m, hm, mem_foldl_blame.mpr (Or.inl (List.mem_cons_of_mem _ ?_)), q, hq, halias⟩
            exact List.mem_filter.mpr ⟨hm, by rw [hq]; rfl⟩
          · rcases mem_foldl_blame.mp hm with hm | hm
            · rcases List.mem_cons.mp hm with rfl | hm
              · exact h.waiting m hn
              · -- Links go both ways, so a neighbour has a link of its own and exists.
                exact hg.lt_size (List.mem_filter.mp hm).1
            · exact h.blames m hm

theorem Accounted.steps (hg : g.Mutual) (k : Nat) (h : Accounted g s) :
    Accounted g (s.steps g k) :=
  steps_inv (fun _ _ hn hs => hs.process hg hn) k h

end Greedy

namespace Interference

variable {g : Interference M} {blames : List (Nat × Nat)}

theorem accounted_start (g : Interference M) (own : Assignment M) :
    Greedy.Accounted g (g.start own) where
  blocked h := absurd rfl h
  blames n hn := absurd hn (by simp [start])
  waiting n hn := by
    simp only [start, List.map_map, List.mem_map, List.mem_filter, Function.comp_apply] at hn
    rcases hn with ⟨m, ⟨hm, _⟩, rfl⟩
    exact List.mem_range.mp hm

/-- A stuck coloring has met a node that was blocked, and blames only nodes of the graph. -/
theorem color_stuck (hg : g.Mutual) (h : g.color = .ok (.stuck blames)) :
    g.Blocked blames ∧ ∀ n ∈ blames.map Prod.fst, n < g.size := by
  rw [color_eq, colorByCounts] at h
  cases hown : precolor 0 (g.nodes.toList.map fun node => node.label.regs) with
  | error cause => rw [hown] at h; exact absurd h (by simp [bind, Except.bind])
  | ok own =>
      have haccount := (accounted_start g own).steps hg (g.start own).waiting.length
      rw [hown] at h
      simp only [bind, Except.bind, pure, Except.pure, Except.ok.injEq] at h
      split at h
      · exact absurd h (by simp)
      · rename_i hblames
        rw [Coloring.stuck.injEq] at h
        subst h
        exact ⟨haccount.blocked fun hnil => hblames (by rw [hnil]; rfl), haccount.blames⟩

/-- The class of a node is that of a virtual register it holds. -/
theorem exists_of_class {n : Nat} {c : M.Class} (h : g.class? n = some c) :
    ∃ v, .virtual v ∈ g.regs n ∧ v.cls = c := by
  rcases Option.bind_eq_some_iff.mp h with ⟨group, hlabel, hclass⟩
  rcases Option.map_eq_some_iff.mp hclass with ⟨v, hfind, rfl⟩
  rcases List.exists_of_findSome?_eq_some hfind with ⟨r, hr, hv⟩
  refine ⟨v, ?_, rfl⟩
  unfold regs
  rw [hlabel]
  cases r with
  | virtual w => exact Option.some.inj hv ▸ hr
  | physical p => exact absurd hv (by simp [Register.virtual?])

/-- If a node with property `P` has fewer neighbours with it than registers to choose from,
    a blocked node is not to be explained by nodes with `P` alone. -/
theorem Blocked.exists_not (hM : M.Disjoint) (hmembers : ∀ c, (M.members c).Nodup)
    (h : g.Blocked blames) {P : Nat → Prop}
    (hfew : ∀ n c, g.class? n = some c → P n → ∀ nodes : List Nat, nodes.Nodup →
      (∀ m ∈ nodes, m ∈ g.neighbors n ∧ P m) → nodes.length < (M.members c).length) :
    ∃ n ∈ blames.map Prod.fst, ¬ P n := by
  rcases h with ⟨n, c, colors, hclass, hn, htaken⟩
  by_contra hall
  push Not at hall
  choose! node hnode using htaken
  -- One neighbour takes one register, so different registers come from different ones.
  have hinj : ∀ p ∈ M.members c, ∀ p' ∈ M.members c, node p = node p' → p = p' := by
    intro p hp p' hp' heq
    rcases (hnode p hp).2.2 with ⟨q, hq, halias⟩
    rcases (hnode p' hp').2.2 with ⟨q', hq', halias'⟩
    rw [heq, hq', Option.some.injEq] at hq
    rw [← hM q p (Machine.aliases_iff.mp halias), ← hM q' p' (Machine.aliases_iff.mp halias'), hq]
  have hless := hfew n c hclass (hall n hn) ((M.members c).map node)
    ((List.nodup_map_iff_inj_on (hmembers c)).mpr hinj) fun m hm => by
      rcases List.mem_map.mp hm with ⟨p, hp, rfl⟩
      exact ⟨(hnode p hp).1, hall _ (hnode p hp).2.1⟩
  rw [List.length_map] at hless
  exact Nat.lt_irrefl _ hless

end Interference

section Select

variable {name : String} {g : Interference M} {l : Liveness M} {blames : List (Nat × Nat)}
  {excluded : List Nat}

theorem mem_spillCandidates {a : Candidate M} (h : a ∈ spillCandidates g l blames excluded) :
    ∃ n ∈ blames.map Prod.fst, .virtual a.reg ∈ g.regs n ∧ a.reg.id ∉ excluded := by
  rcases List.mem_flatMap.mp h with ⟨⟨n, count⟩, hn, ha⟩
  rcases List.mem_map.mp ha with ⟨v, hv, rfl⟩
  rw [List.mem_filter, Register.mem_virtuals] at hv
  exact ⟨n, List.mem_map.mpr ⟨_, hn, rfl⟩, hv.1, by simpa using hv.2⟩

/-- The register to spill belongs to a blamed node and is not excluded. -/
theorem selectSpill_eq_ok {v : VReg M} (h : selectSpill name g l blames excluded = .ok v) :
    ∃ n ∈ blames.map Prod.fst, .virtual v ∈ g.regs n ∧ v.id ∉ excluded := by
  rw [selectSpill_eq] at h
  split at h
  · exact absurd h (by simp)
  · cases hbest : Candidate.best? (spillCandidates g l blames excluded) with
    | none => rw [hbest] at h; exact absurd h (by simp)
    | some a =>
        rw [hbest] at h
        simp only [Except.ok.injEq] at h
        subst h
        exact mem_spillCandidates (Candidate.isBest_of_best hbest).mem

/-- If all blamed nodes exist, only the comparison of the candidates is left. -/
theorem selectSpill_of_nodes (name : String) (l : Liveness M)
    (hsize : ∀ n ∈ blames.map Prod.fst, n < g.size) (excluded : List Nat) :
    selectSpill name g l blames excluded =
      ((Candidate.best? (spillCandidates g l blames excluded)).map fun found => .ok found.reg).getD
        (.error (.exhausted name)) := by
  have hnone : blames.find? (fun entry => !below entry.1 g.size) = none := by
    rw [List.find?_eq_none]
    intro entry hentry
    have hlt := hsize entry.1 (List.mem_map.mpr ⟨entry, hentry, rfl⟩)
    simp [below, hlt]
  rw [selectSpill_eq, hnone]
  cases Candidate.best? (spillCandidates g l blames excluded) with
  | none => rfl
  | some found => rfl

/-- There is a register to spill if a blamed node holds one that is not excluded. -/
theorem exists_selectSpill (name : String) (l : Liveness M) (hsize : ∀ n ∈ blames.map Prod.fst, n < g.size)
    (hfree : ∃ n ∈ blames.map Prod.fst, ∃ v, .virtual v ∈ g.regs n ∧ v.id ∉ excluded) :
    ∃ v, selectSpill name g l blames excluded = .ok v := by
  rcases hfree with ⟨n, hn, v, hv, hid⟩
  rcases List.mem_map.mp hn with ⟨⟨n, count⟩, hentry, rfl⟩
  have hmem : ⟨v, count * extent (l.rangesOf (.virtual v))⟩ ∈
      spillCandidates g l blames excluded := by
    refine List.mem_flatMap.mpr ⟨_, hentry, List.mem_map.mpr ⟨v, ?_, rfl⟩⟩
    rw [List.mem_filter, Register.mem_virtuals]
    exact ⟨hv, by simpa using hid⟩
  have hne := mt Candidate.best_eq_none_iff.mp (List.ne_nil_of_mem hmem)
  rcases Option.ne_none_iff_exists'.mp hne with ⟨a, ha⟩
  exact ⟨a.reg, by rw [selectSpill_of_nodes name l hsize, ha]; rfl⟩

end Select

end RegisterColoring
