import Mathlib.Data.List.Nodup
import RegisterColoring.Proofs.QueuedColoring

/-!
# Greedy Coloring Is Proper

A node takes a register that aliases no register of a colored neighbour, so at no time
do two neighbours share storage, except where both came with registers of their own.
Each step takes one node off the waiting list. When nothing is waiting, every node
has a register, or else something was blamed.

Neighbours are looked at from the node that is colored last. That is enough only if
links go both ways, which is the one thing that has to be known about the graph.

## Main definitions

* `Interference.Mutual`: Links go both ways and join different nodes.
* `Greedy.Proper`: What every step keeps true.

## Theorems

* `Greedy.Proper.process`, `Greedy.Proper.steps`: One step, and all of them.
* `lookup_precolor`: The registers that nodes hold themselves.
* `Interference.own_eq_of_mem`: No node holds two of them.
* `Interference.color_complete`: What a complete coloring gives.
-/

namespace RegisterColoring

variable {M : Machine}

/-- Links go both ways and join different nodes. -/
structure Interference.Mutual (g : Interference M) : Prop where
  symm : ∀ n m, m ∈ g.neighbors n → n ∈ g.neighbors m
  irrefl : ∀ n, n ∉ g.neighbors n

theorem Interference.Mutual.lt_size {g : Interference M} (hg : g.Mutual) {n m : Nat}
    (hm : m ∈ g.neighbors n) : m < g.size := by
  have hback := hg.symm n m hm
  unfold Interference.neighbors Digraph.succ at hback
  cases hnode : g.nodes[m]? with
  | none => rw [hnode] at hback; exact absurd hback (by simp)
  | some node => exact (Array.getElem?_eq_some_iff.mp hnode).1

namespace Greedy

/-- What coloring keeps true of its state, if `own` are the registers that nodes hold
    themselves. -/
structure Proper (g : Interference M) (own : Assignment M) (s : Greedy M) : Prop where
  kept : ∀ n p, own.lookup n = some p → s.colors.lookup n = some p
  /-- Neighbours have registers apart, unless they came with them. -/
  apart : ∀ n m p q, m ∈ g.neighbors n → s.colors.lookup n = some p →
    s.colors.lookup m = some q → own.lookup n = none ∨ own.lookup m = none →
      Machine.aliases p q = false
  waiting : ∀ n ∈ s.waiting.map Prod.fst, s.colors.lookup n = none
  /-- Without a blame, no node of a class is lost. -/
  all : s.blames = [] → ∀ n < g.size, (s.colors.lookup n).isSome ∨
    n ∈ s.waiting.map Prod.fst ∨ g.class? n = none

variable {g : Interference M} {own : Assignment M} {s : Greedy M}

/-- What the alias sets of the neighbours' registers leave free is what aliases none of them. -/
theorem freeRegister_eq_find (colors : Assignment M) (neighbors : List Nat) (c : M.Class) :
    freeRegister? colors neighbors c = (M.members c).find? fun p =>
      (neighbors.filterMap fun n => colors.lookup n).all fun q => !Machine.aliases q p := by
  refine congrArg (List.find? · (M.members c)) (funext fun p => ?_)
  rw [Bool.eq_iff_iff, List.all_eq_true]
  simp only [Bool.not_eq_true', ← Bool.not_eq_true, List.contains_iff_mem, List.mem_flatMap,
    Machine.mem_aliasSet_iff]
  push Not
  rfl

/-- A register that is free aliases none that a neighbour has. -/
theorem freeRegister_apart {colors : Assignment M} {neighbors : List Nat} {c : M.Class}
    {p : M.Reg} (h : freeRegister? colors neighbors c = some p) {m : Nat} (hm : m ∈ neighbors)
    {q : M.Reg} (hq : colors.lookup m = some q) : Machine.aliases q p = false := by
  rw [freeRegister_eq_find] at h
  have hfree := List.find?_some h
  rw [List.all_eq_true] at hfree
  have hq' : q ∈ neighbors.filterMap fun n => colors.lookup n := List.mem_filterMap.mpr ⟨m, hm, hq⟩
  simpa using hfree q hq'

theorem blame_ne_nil (n : Nat) (blames : List (Nat × Nat)) : blame n blames ≠ [] := by
  cases blames with
  | nil => simp [blame]
  | cons entry rest =>
      obtain ⟨m, count⟩ := entry
      unfold blame
      split
      · simp
      · split <;> simp

/-- A node that is blamed stays blamed. -/
theorem foldl_blame_ne_nil (n : Nat) (nodes : List Nat) (blames : List (Nat × Nat)) :
    (n :: nodes).foldl (fun blames m => blame m blames) blames ≠ [] := by
  rw [List.foldl_cons]
  generalize hstart : blame n blames = start
  have hne : start ≠ [] := hstart ▸ blame_ne_nil n blames
  clear hstart
  induction nodes generalizing start with
  | nil => exact hne
  | cons m nodes ih =>
      rw [List.foldl_cons]
      exact ih _ (blame_ne_nil m start)

theorem lookup_cons {colors : Assignment M} {n m : Nat} {p : M.Reg} :
    List.lookup m ((n, p) :: colors) = if m = n then some p else colors.lookup m := by
  rw [List.lookup_cons]
  by_cases hmn : m = n
  · simp [hmn]
  · have hne : (m == n) = false := by simpa using hmn
    simp [hne, hmn]

/-- What processing a node can do: drop a node without a class, color it, or blame it. -/
theorem process_cases (g : Interference M) (s : Greedy M) (n : Nat) :
    (g.class? n = none ∧ (s.process g n).colors = s.colors ∧
        (s.process g n).blames = s.blames) ∨
      (∃ p, (s.process g n).colors = (n, p) :: s.colors ∧ (s.process g n).blames = s.blames ∧
        ∀ m ∈ g.neighbors n, ∀ q, s.colors.lookup m = some q → Machine.aliases q p = false) ∨
      ((s.process g n).colors = s.colors ∧ (s.process g n).blames ≠ []) := by
  unfold process
  cases hclass : g.class? n with
  | none => exact Or.inl ⟨rfl, rfl, rfl⟩
  | some c =>
      cases hfree : freeRegister? s.colors (g.neighbors n) c with
      | some p =>
          refine Or.inr (Or.inl ⟨p, ?_, ?_, fun m hm q hq => freeRegister_apart hfree hm hq⟩)
          · simp [hfree]
          · simp [hfree]
      | none =>
          refine Or.inr (Or.inr ⟨?_, ?_⟩)
          · simp [hfree]
          · simp only [hfree]
            exact foldl_blame_ne_nil _ _ _

/-- A new color is compared with those of all colored neighbours, so it keeps
    neighbours apart. -/
theorem Proper.apart_cons (hg : g.Mutual) (h : Proper g own s) {n : Nat} {p : M.Reg}
    (hnew : ∀ m ∈ g.neighbors n, ∀ q, s.colors.lookup m = some q → Machine.aliases q p = false)
    {a b : Nat} {q r : M.Reg} (hb : b ∈ g.neighbors a)
    (ha : List.lookup a ((n, p) :: s.colors) = some q)
    (hb' : List.lookup b ((n, p) :: s.colors) = some r)
    (hone : own.lookup a = none ∨ own.lookup b = none) : Machine.aliases q r = false := by
  rw [lookup_cons] at ha hb'
  by_cases han : a = n
  · have hbn : b ≠ n := fun hbn => hg.irrefl n (by rw [han, hbn] at hb; exact hb)
    rw [if_pos han, Option.some.injEq] at ha
    rw [if_neg hbn] at hb'
    have hapart := hnew b (han ▸ hb) r hb'
    rw [ha] at hapart
    exact Bool.eq_false_iff.mpr fun halias =>
      absurd (Machine.aliases_symm halias) (by simp [hapart])
  · rw [if_neg han] at ha
    by_cases hbn : b = n
    · -- The link goes both ways, so `a` was among the neighbours looked at.
      rw [if_pos hbn, Option.some.injEq] at hb'
      have hapart := hnew a (hbn ▸ hg.symm a b hb) q ha
      rw [hb'] at hapart
      exact hapart
    · rw [if_neg hbn] at hb'
      exact h.apart a b q r hb ha hb' hone

/-- Processing a waiting node keeps the coloring proper. -/
theorem Proper.process (hg : g.Mutual) (h : Proper g own s) {n : Nat}
    (hn : n ∈ s.waiting.map Prod.fst) : Proper g own (s.process g n) := by
  have hfree : s.colors.lookup n = none := h.waiting n hn
  have hown : own.lookup n = none := by
    cases hlook : own.lookup n with
    | none => rfl
    | some p => rw [h.kept n p hlook] at hfree; exact absurd hfree (by simp)
  have hwaiting : ∀ m, m ∈ (s.process g n).waiting.map Prod.fst ↔
      m ∈ s.waiting.map Prod.fst ∧ m ≠ n := by
    intro m
    rw [map_fst_waiting_process, mem_filter_waiting]
  rcases process_cases g s n with ⟨hclass, hcolors, hblames⟩ | ⟨p, hcolors, hblames, hnew⟩ |
    ⟨hcolors, hblames⟩
  · -- Without a class the node is only taken off the list.
    refine ⟨by rw [hcolors]; exact h.kept, by rw [hcolors]; exact h.apart, ?_, ?_⟩
    · intro m hm
      rw [hcolors]
      exact h.waiting m ((hwaiting m).mp hm).1
    · intro hnone m hm
      rw [hcolors]
      rw [hblames] at hnone
      rcases h.all hnone m hm with hcolored | hwait | hnoclass
      · exact Or.inl hcolored
      · by_cases hmn : m = n
        · exact Or.inr (Or.inr (hmn ▸ hclass))
        · exact Or.inr (Or.inl ((hwaiting m).mpr ⟨hwait, hmn⟩))
      · exact Or.inr (Or.inr hnoclass)
  · have hlookup : ∀ m, (s.process g n).colors.lookup m =
        if m = n then some p else s.colors.lookup m := by
      intro m
      rw [hcolors, lookup_cons]
    refine ⟨fun m q hq => ?_, fun a b q r hb ha hb' hone => ?_, fun m hm => ?_,
      fun hnone m hm => ?_⟩
    · rw [hlookup, if_neg fun hmn => by rw [hmn, hown] at hq; exact absurd hq (by simp)]
      exact h.kept m q hq
    · rw [hcolors] at ha hb'
      exact h.apart_cons hg hnew hb ha hb' hone
    · rw [hlookup, if_neg ((hwaiting m).mp hm).2]
      exact h.waiting m ((hwaiting m).mp hm).1
    · rw [hblames] at hnone
      rw [hlookup]
      by_cases hmn : m = n
      · exact Or.inl (by simp [hmn])
      · rw [if_neg hmn]
        rcases h.all hnone m hm with hcolored | hwait | hnoclass
        · exact Or.inl hcolored
        · exact Or.inr (Or.inl ((hwaiting m).mpr ⟨hwait, hmn⟩))
        · exact Or.inr (Or.inr hnoclass)
  · -- No register was free; the node is lost, but there is a blame to show for it.
    refine ⟨by rw [hcolors]; exact h.kept, by rw [hcolors]; exact h.apart, ?_,
      fun hnone => absurd hnone hblames⟩
    intro m hm
    rw [hcolors]
    exact h.waiting m ((hwaiting m).mp hm).1

/-- A step keeps the coloring proper and takes a node off a waiting list that is not
    empty. -/
theorem Proper.step (hg : g.Mutual) (h : Proper g own s) :
    Proper g own (s.step g) ∧ (s.step g).waiting.length ≤ s.waiting.length - 1 := by
  unfold Greedy.step
  cases hmost : mostConstrained? s.waiting with
  | none =>
      exact ⟨h, by simp [eq_nil_of_mostConstrained hmost]⟩
  | some entry =>
      obtain ⟨n, count⟩ := entry
      have hmem := mem_of_mostConstrained hmost
      refine ⟨h.process hg (List.mem_map.mpr ⟨_, hmem, rfl⟩), ?_⟩
      -- The node that was processed waits no longer.
      have hlen := congrArg List.length (map_fst_waiting_process g s n)
      rw [List.length_map, List.length_map] at hlen
      have hless : (s.waiting.filter fun entry => decide (entry.1 ≠ n)).length <
          s.waiting.length := by
        rw [List.length_filter_lt_length_iff_exists]
        exact ⟨(n, count), hmem, by simp⟩
      change (s.process g n).waiting.length ≤ s.waiting.length - 1
      omega

/-- After as many steps as nodes were waiting, none is. -/
theorem Proper.steps (hg : g.Mutual) (k : Nat) (h : Proper g own s) (hk : s.waiting.length ≤ k) :
    Proper g own (s.steps g k) ∧ (s.steps g k).waiting = [] := by
  induction k generalizing s with
  | zero => exact ⟨h, List.eq_nil_of_length_eq_zero (Nat.le_zero.mp hk)⟩
  | succ k ih =>
      have hstep := h.step hg
      exact ih hstep.1 (by omega)

theorem lookup_colorsUpTo (s : Greedy M) (size n : Nat) :
    (s.colorsUpTo size).lookup n = if n < size then s.colors.lookup n else none := by
  have hone : ∀ k, ([k].filterMap fun m => (s.colors.lookup m).map fun p => (m, p)).lookup n =
      if n = k then s.colors.lookup n else none := by
    intro k
    by_cases hnk : n = k
    · subst hnk
      cases hn : s.colors.lookup n with
      | none => simp [hn]
      | some p => simp [hn]
    · cases hk : s.colors.lookup k with
      | none => simp [hk, hnk]
      | some p => simp [hk, hnk, lookup_cons]
  unfold colorsUpTo
  induction size with
  | zero => rfl
  | succ k ih =>
      rw [List.range_succ, List.filterMap_append, List.lookup_append, ih, hone]
      by_cases hlt : n < k
      · rw [if_pos hlt, if_neg (by omega), if_pos (by omega), Option.or_none]
      · rw [if_neg hlt, Option.none_or]
        by_cases hnk : n = k
        · rw [if_pos hnk, if_pos (by omega)]
        · rw [if_neg hnk, if_neg (by omega)]

end Greedy

/-- The first physical register of a list is the one that it holds. -/
theorem soleRegister_eq {regs : List (Register M)} {o : Option M.Reg}
    (h : soleRegister regs = .ok o) : o = (regs.filterMap Register.physical?).head? := by
  unfold soleRegister at h
  cases hphys : regs.filterMap Register.physical? with
  | nil =>
      rw [hphys] at h
      simp only [Except.ok.injEq] at h
      rw [← h]
      rfl
  | cons first rest =>
      rw [hphys] at h
      simp only at h
      split at h
      · rw [Except.ok.injEq] at h
        rw [← h]
        rfl
      · exact absurd h (by simp)

/-- A list that has one register to hold holds no other. -/
theorem head_of_soleRegister {regs : List (Register M)} {o : Option M.Reg}
    (h : soleRegister regs = .ok o) {p : M.Reg} (hp : .physical p ∈ regs) :
    (regs.filterMap Register.physical?).head? = some p := by
  have hmem : p ∈ regs.filterMap Register.physical? := List.mem_filterMap.mpr ⟨_, hp, rfl⟩
  unfold soleRegister at h
  cases hphys : regs.filterMap Register.physical? with
  | nil => exact absurd (hphys ▸ hmem) (by simp)
  | cons first rest =>
      rw [hphys] at h hmem
      simp only at h
      split at h
      · rename_i hnone
        rcases List.mem_cons.mp hmem with rfl | hrest
        · rfl
        · have hsame := List.find?_eq_none.mp hnone p hrest
          rw [List.head?_cons, Option.some.injEq]
          simpa using Eq.symm (by simpa using hsame)
      · exact absurd h (by simp)

/-- The first node has the register that it holds, and the rest is as without it. -/
theorem precolor_cons {k : Nat} {regs : List (Register M)} {rest : List (List (Register M))}
    {own : Assignment M} (h : precolor k (regs :: rest) = .ok own) :
    ∃ o others, soleRegister regs = .ok o ∧ precolor (k + 1) rest = .ok others ∧
      ∀ n, own.lookup n = (if n = k then (regs.filterMap Register.physical?).head? else none).or
        (others.lookup n) := by
  simp only [precolor] at h
  cases hsole : soleRegister regs with
  | error cause => rw [hsole] at h; exact absurd h (by simp [bind, Except.bind])
  | ok o =>
      cases hothers : precolor (k + 1) rest with
      | error cause => rw [hsole, hothers] at h; exact absurd h (by simp [bind, Except.bind])
      | ok others =>
          rw [hsole, hothers] at h
          refine ⟨o, others, rfl, rfl, fun n => ?_⟩
          rw [← soleRegister_eq hsole]
          cases o with
          | none =>
              obtain rfl : others = own := by
                simpa [bind, Except.bind, pure, Except.pure] using h
              simp
          | some p =>
              obtain rfl : (k, p) :: others = own := by
                simpa [bind, Except.bind, pure, Except.pure] using h
              rw [Greedy.lookup_cons]
              by_cases hnk : n = k
              · simp [hnk]
              · simp [hnk]

/-- The registers that the nodes from `k` on hold themselves. -/
theorem lookup_precolor {k : Nat} {labels : List (List (Register M))} {own : Assignment M}
    (h : precolor k labels = .ok own) (n : Nat) :
    own.lookup n = if n < k then none
      else labels[n - k]?.bind fun regs => (regs.filterMap Register.physical?).head? := by
  induction labels generalizing k own with
  | nil =>
      simp only [precolor, Except.ok.injEq] at h
      subst h
      simp
  | cons regs rest ih =>
      rcases precolor_cons h with ⟨_, others, _, hothers, hlook⟩
      rw [hlook, ih hothers, List.getElem?_cons]
      by_cases hnk : n = k
      · -- The node itself: the later ones say nothing about it.
        subst hnk
        rw [if_pos rfl, if_pos (by omega), if_neg (by omega), if_pos (by omega), Option.or_none,
          Option.bind_some]
      · rw [if_neg hnk, Option.none_or]
        by_cases hlt : n < k
        · rw [if_pos (by omega), if_pos hlt]
        · rw [if_neg (by omega), if_neg hlt, if_neg (by omega),
            show n - k - 1 = n - (k + 1) by omega]

/-- In no node does the first step meet two registers of the machine. -/
theorem head_of_precolor {k : Nat} {labels : List (List (Register M))} {own : Assignment M}
    (h : precolor k labels = .ok own) {regs : List (Register M)} (hregs : regs ∈ labels) {p : M.Reg}
    (hp : .physical p ∈ regs) : (regs.filterMap Register.physical?).head? = some p := by
  induction labels generalizing k own with
  | nil => exact absurd hregs (by simp)
  | cons first rest ih =>
      rcases precolor_cons h with ⟨_, others, hsole, hothers, _⟩
      rcases List.mem_cons.mp hregs with rfl | hrest
      · exact head_of_soleRegister hsole hp
      · exact ih hothers hrest

namespace Interference

variable {g : Interference M}

/-- The registers that the nodes of a graph hold themselves. -/
def own? (g : Interference M) (n : Nat) : Option M.Reg :=
  ((g.regs n).filterMap Register.physical?).head?

theorem lookup_own {own : Assignment M}
    (h : precolor 0 (g.nodes.toList.map fun node => node.label.regs) = .ok own) (n : Nat) :
    own.lookup n = g.own? n := by
  rw [lookup_precolor h, if_neg (by omega), Nat.sub_zero, List.getElem?_map, Array.getElem?_toList]
  unfold own? regs Digraph.label?
  cases g.nodes[n]? with
  | none => rfl
  | some node => rfl

/-- Where coloring does not fail, a node holds one register of the machine at most. -/
theorem own_eq_of_mem {coloring : Coloring M} (h : g.color = .ok coloring) {n : Nat} {p : M.Reg}
    (hp : .physical p ∈ g.regs n) : g.own? n = some p := by
  rw [color_eq, colorByCounts] at h
  cases hown : precolor 0 (g.nodes.toList.map fun node => node.label.regs) with
  | error cause => rw [hown] at h; exact absurd h (by simp [bind, Except.bind])
  | ok own =>
      unfold regs Digraph.label? at hp
      cases hnode : g.nodes[n]? with
      | none => rw [hnode] at hp; exact absurd hp (by simp)
      | some node =>
          rw [hnode] at hp
          unfold own? regs Digraph.label?
          rw [hnode]
          refine head_of_precolor hown (List.mem_map.mpr ⟨node, ?_, rfl⟩) hp
          exact Array.mem_toList_iff.mpr (Array.mem_of_getElem? hnode)

/-- Before the first step, the nodes with registers of their own have them and all
    others wait. -/
theorem proper_start (g : Interference M) (own : Assignment M) :
    Greedy.Proper g own (g.start own) where
  kept _ _ hn := hn
  apart n m p q _ hn hm hone := by
    -- At first only nodes with registers of their own are colored.
    have hn' : own.lookup n = some p := hn
    have hm' : own.lookup m = some q := hm
    rw [hn', hm'] at hone
    exact absurd hone (by simp)
  waiting n hn := by
    simp only [start, List.map_map, List.mem_map, List.mem_filter, Function.comp_apply] at hn
    rcases hn with ⟨m, ⟨_, hm⟩, rfl⟩
    exact Option.isNone_iff_eq_none.mp hm
  all _ n hn := by
    cases hlook : own.lookup n with
    | some p => exact Or.inl (by simp [start, hlook])
    | none =>
        refine Or.inr (Or.inl ?_)
        simp only [start, List.map_map, List.mem_map, List.mem_filter, Function.comp_apply]
        exact ⟨n, ⟨List.mem_range.mpr hn, by simp [hlook]⟩, rfl⟩

/-- A complete coloring gives every node of a class a register, leaves nodes their own
    registers, and gives neighbours registers apart unless both had their own. -/
theorem color_complete (hg : g.Mutual) {colors : Assignment M}
    (h : g.color = .ok (.complete colors)) :
    (∀ n < g.size, ∀ p, g.own? n = some p → colors.lookup n = some p) ∧
      (∀ n < g.size, g.class? n ≠ none → ∃ p, colors.lookup n = some p) ∧
      ∀ n m p q, m ∈ g.neighbors n → colors.lookup n = some p → colors.lookup m = some q →
        g.own? n = none ∨ g.own? m = none → Machine.aliases p q = false := by
  rw [color_eq, colorByCounts] at h
  cases hown : precolor 0 (g.nodes.toList.map fun node => node.label.regs) with
  | error cause => rw [hown] at h; exact absurd h (by simp [bind, Except.bind])
  | ok own =>
      rcases (proper_start g own).steps hg _ (Nat.le_refl _) with ⟨hproper, hwaiting⟩
      rw [hown] at h
      simp only [bind, Except.bind, pure, Except.pure, Except.ok.injEq] at h
      split at h
      · rename_i hblames
        rw [Coloring.complete.injEq] at h
        subst h
        -- The colors below the size are those of the last state.
        have hlook : ∀ n q, ((g.start own).steps g (g.start own).waiting.length |>.colorsUpTo
            g.size).lookup n = some q → ((g.start own).steps g
              (g.start own).waiting.length).colors.lookup n = some q := by
          intro n q hq
          rw [Greedy.lookup_colorsUpTo] at hq
          split at hq
          · exact hq
          · exact absurd hq (by simp)
        refine ⟨fun n hn p hp => ?_, fun n hn hclass => ?_, fun n m p q hm hn hm' hone => ?_⟩
        · rw [Greedy.lookup_colorsUpTo, if_pos hn]
          exact hproper.kept n p (by rw [lookup_own hown]; exact hp)
        · rw [Greedy.lookup_colorsUpTo, if_pos hn]
          -- Nothing was blamed and nothing waits, so all nodes with a class are colored.
          rcases hproper.all (List.isEmpty_iff.mp hblames) n hn with hcolored | hwait | hnone
          · exact Option.isSome_iff_exists.mp hcolored
          · rw [hwaiting] at hwait
            exact absurd hwait (by simp)
          · exact absurd hnone hclass
        · rw [← lookup_own hown, ← lookup_own hown] at hone
          exact hproper.apart n m p q hm (hlook n p hn) (hlook m q hm') hone
      · exact absurd h (by simp)

end Interference

end RegisterColoring
