import Mathlib.Data.List.Induction
import RegisterColoring.Allocation
import RegisterColoring.Proofs.ProperColoring
import RegisterColoring.Proofs.Ranges
import RegisterColoring.Proofs.Straight

/-!
# Where Registers Are Placed

Without ties, a group of the analysis holds a single register, maybe listed more than
once. The nodes of the interference graph then stand for registers, and a complete
coloring places two registers apart if a range of one overlaps a range of the other.

The ranges of virtual registers are known from the analysis. Those of physical
registers come from the scans alone, which is enough because no physical register is
live into a block. So the ranges of all written registers are those of
`Function.HasRange`, on a machine whose registers do not overlap.

## Main definitions

* `Liveness.Separate`: Each group holds one register.
* `Machine.Disjoint`: No register is part of another.

## Theorems

* `mem_gather`, `exists_gather`, `gather_index_unique`: The groups of equal keys.
* `sublist_of_mem_gather`, `gather_of_nodup`: Groups are in order and not empty, and those of
  different keys have one element.
* `Liveness.mutual_interference`: Links go both ways.
* `Liveness.place_apart`: Registers with overlapping ranges are placed apart.
* `Function.mem_rangesOf_iff`: The ranges of written registers.
* `Function.place_ne`: Ranges of a function that overlap keep registers apart.
-/

namespace RegisterColoring

variable {M : Machine}

section Gather

variable {α β : Type} [DecidableEq β] {key : α → β}

/-- Adding an element starts a group or goes to the end of one. -/
theorem addToGroup_cases {k : β} {a : α} {groups : List (β × List α)} {entry : β × List α}
    (h : entry ∈ addToGroup k a groups) :
    entry ∈ groups ∨ entry = (k, [a]) ∨
      ∃ group, (k, group) ∈ groups ∧ entry = (k, group ++ [a]) := by
  induction groups with
  | nil =>
      rw [addToGroup, List.mem_singleton] at h
      exact Or.inr (Or.inl h)
  | cons head rest ih =>
      obtain ⟨k', group⟩ := head
      unfold addToGroup at h
      by_cases hk : k' = k
      · -- The head is the group of the key.
        subst hk
        rw [if_pos rfl] at h
        rcases List.mem_cons.mp h with hnew | hold
        · exact Or.inr (Or.inr ⟨group, List.mem_cons_self, hnew⟩)
        · exact Or.inl (List.mem_cons_of_mem _ hold)
      · rw [if_neg hk] at h
        rcases List.mem_cons.mp h with rfl | h
        · exact Or.inl List.mem_cons_self
        · rcases ih h with hold | hnew | ⟨group', hgroup', hnew⟩
          · exact Or.inl (List.mem_cons_of_mem _ hold)
          · exact Or.inr (Or.inl hnew)
          · exact Or.inr (Or.inr ⟨group', List.mem_cons_of_mem _ hgroup', hnew⟩)

/-- What was in a group stays in one, and the new element is in one. -/
theorem exists_addToGroup {k : β} {a x : α} {groups : List (β × List α)}
    (h : x = a ∨ ∃ entry ∈ groups, x ∈ entry.2) :
    ∃ entry ∈ addToGroup k a groups, x ∈ entry.2 := by
  induction groups with
  | nil =>
      rcases h with rfl | ⟨entry, hentry, _⟩
      · exact ⟨(k, [x]), by simp [addToGroup], by simp⟩
      · exact absurd hentry (by simp)
  | cons head rest ih =>
      obtain ⟨k', group⟩ := head
      unfold addToGroup
      split
      · -- The head is the group of the key.
        rcases h with rfl | ⟨entry, hentry, hx⟩
        · exact ⟨(k', group ++ [x]), List.mem_cons_self, by simp⟩
        · rcases List.mem_cons.mp hentry with rfl | hentry
          · exact ⟨(k', group ++ [a]), List.mem_cons_self, by simpa using Or.inl hx⟩
          · exact ⟨entry, List.mem_cons_of_mem _ hentry, hx⟩
      · rcases h with rfl | ⟨entry, hentry, hx⟩
        · rcases ih (Or.inl rfl) with ⟨entry, hentry, hx⟩
          exact ⟨entry, List.mem_cons_of_mem _ hentry, hx⟩
        · rcases List.mem_cons.mp hentry with rfl | hentry
          · exact ⟨_, List.mem_cons_self, hx⟩
          · rcases ih (Or.inr ⟨entry, hentry, hx⟩) with ⟨entry', hentry', hx'⟩
            exact ⟨entry', List.mem_cons_of_mem _ hentry', hx'⟩

theorem map_fst_addToGroup (k : β) (a : α) (groups : List (β × List α)) :
    (addToGroup k a groups).map Prod.fst =
      if k ∈ groups.map Prod.fst then groups.map Prod.fst else groups.map Prod.fst ++ [k] := by
  induction groups with
  | nil => simp [addToGroup]
  | cons head rest ih =>
      obtain ⟨k', group⟩ := head
      unfold addToGroup
      by_cases hk : k' = k
      · simp [hk]
      · have hk' : ¬ k = k' := fun h => hk h.symm
        simp only [if_neg hk, List.map_cons, ih, List.mem_cons, hk', false_or]
        split <;> rfl

/-- The groups are filed under different keys, and each member under its own. -/
theorem filed_foldl_addToGroup (key : α → β) (l : List α) :
    ((l.foldl (fun groups a => addToGroup (key a) a groups) []).map Prod.fst).Nodup ∧
      ∀ entry ∈ l.foldl (fun groups a => addToGroup (key a) a groups) [],
        ∀ x ∈ entry.2, key x = entry.1 := by
  refine foldl_inv (I := fun groups : List (β × List α) => (groups.map Prod.fst).Nodup ∧
    ∀ entry ∈ groups, ∀ x ∈ entry.2, key x = entry.1) (fun groups a _ hgroups => ?_) (by simp)
  refine ⟨?_, fun entry hentry => ?_⟩
  · rw [map_fst_addToGroup]
    split
    · exact hgroups.1
    · rename_i hnew
      exact hgroups.1.append (List.nodup_singleton _) (by simpa using hnew)
  · rcases addToGroup_cases hentry with hold | rfl | ⟨group, hgroup, rfl⟩
    · exact hgroups.2 entry hold
    · intro x hx
      rw [List.mem_singleton.mp hx]
    · intro x hx
      rcases List.mem_append.mp hx with hx | hx
      · exact hgroups.2 _ hgroup x hx
      · rw [List.mem_singleton.mp hx]

/-- The members of a group have one key. -/
theorem mem_gather {l group : List α} (h : group ∈ gather key l) :
    ∃ k, ∀ x ∈ group, key x = k := by
  rcases List.mem_map.mp h with ⟨entry, hentry, rfl⟩
  exact ⟨entry.1, (filed_foldl_addToGroup key l).2 entry hentry⟩

/-- A group lists elements in the order of the list, and at least one. -/
theorem sublist_of_mem_gather {l group : List α} (h : group ∈ gather key l) :
    group.Sublist l ∧ group ≠ [] := by
  have hinv : ∀ entry ∈ l.foldl (fun groups a => addToGroup (key a) a groups) [],
      entry.2.Sublist l ∧ entry.2 ≠ [] := by
    clear h
    -- Elements are added one after the other, each behind those of its group.
    induction l using List.reverseRecOn with
    | nil => simp
    | append_singleton l a ih =>
        intro entry hentry
        rw [List.foldl_append, List.foldl_cons, List.foldl_nil] at hentry
        rcases addToGroup_cases hentry with hold | rfl | ⟨other, hother, rfl⟩
        · exact ⟨(ih entry hold).1.trans (List.sublist_append_left l [a]), (ih entry hold).2⟩
        · exact ⟨List.sublist_append_right l [a], by simp⟩
        · exact ⟨(ih _ hother).1.append (List.Sublist.refl [a]), by simp⟩
  rcases List.mem_map.mp h with ⟨entry, hentry, rfl⟩
  exact hinv entry hentry

theorem addToGroup_of_not_mem {k : β} {a : α} {groups : List (β × List α)}
    (h : k ∉ groups.map Prod.fst) : addToGroup k a groups = groups ++ [(k, [a])] := by
  induction groups with
  | nil => rfl
  | cons entry rest ih =>
      rw [List.map_cons, List.mem_cons, not_or] at h
      rw [addToGroup, if_neg (Ne.symm h.1), ih h.2]
      rfl

/-- A list without repeated keys is gathered into groups of one. -/
theorem gather_of_nodup {l : List α} (h : (l.map key).Nodup) :
    gather key l = l.map fun a => [a] := by
  have hgroups : l.foldl (fun groups a => addToGroup (key a) a groups) [] =
      l.map fun a => (key a, [a]) := by
    induction l using List.reverseRecOn with
    | nil => rfl
    | append_singleton l a ih =>
        rw [List.map_append, List.nodup_append] at h
        rw [List.foldl_append, List.foldl_cons, List.foldl_nil, ih h.1, addToGroup_of_not_mem,
          List.map_append]
        · rfl
        · intro hmem
          rw [List.map_map] at hmem
          exact h.2.2 _ hmem _ (by simp) rfl
  rw [gather, hgroups, List.map_map]
  rfl

/-- Elements of one key are in one group. -/
theorem gather_index_unique {l : List α} {n m : Nat} {group group' : List α}
    (hn : (gather key l)[n]? = some group) (hm : (gather key l)[m]? = some group') {x y : α}
    (hx : x ∈ group) (hy : y ∈ group') (hkey : key x = key y) : n = m := by
  rcases filed_foldl_addToGroup key l with ⟨hnodup, hfiled⟩
  unfold gather at hn hm
  rw [List.getElem?_map, Option.map_eq_some_iff] at hn hm
  rcases hn with ⟨entry, hentry, rfl⟩
  rcases hm with ⟨entry', hentry', rfl⟩
  have hkeys : entry.1 = entry'.1 := by
    rw [← hfiled entry (List.mem_of_getElem? hentry) x hx, hkey,
      hfiled entry' (List.mem_of_getElem? hentry') y hy]
  refine (List.getElem?_inj ?_ hnodup).mp ?_
  · rw [List.length_map]
    exact (List.getElem?_eq_some_iff.mp hentry).1
  · rw [List.getElem?_map, List.getElem?_map, hentry, hentry', Option.map_some, Option.map_some,
      hkeys]

/-- Every element is in a group. -/
theorem exists_gather (key : α → β) {l : List α} {x : α} (hx : x ∈ l) :
    ∃ group ∈ gather key l, x ∈ group := by
  -- What is in a group already stays in one.
  have hinv : ∀ start : List (β × List α), (x ∈ l ∨ ∃ entry ∈ start, x ∈ entry.2) →
      ∃ entry ∈ l.foldl (fun groups a => addToGroup (key a) a groups) start, x ∈ entry.2 := by
    clear hx
    induction l with
    | nil =>
        rintro start (hx | hx)
        · exact absurd hx (by simp)
        · exact hx
    | cons a l ih =>
        intro start h
        rw [List.foldl_cons]
        refine ih _ ?_
        rcases h with hx | hstart
        · rcases List.mem_cons.mp hx with rfl | hx
          · exact Or.inr (exists_addToGroup (Or.inl rfl))
          · exact Or.inl hx
        · exact Or.inr (exists_addToGroup (Or.inr hstart))
  rcases hinv [] (Or.inl hx) with ⟨entry, hentry, hmem⟩
  exact ⟨entry.2, List.mem_map.mpr ⟨entry, hentry, rfl⟩, hmem⟩

end Gather

/-- The links of the graph of a relation. -/
theorem mem_succ_ofRelation {α : Type} {labels : List α} {related : α → α → Bool} {n m : Nat} :
    m ∈ (Digraph.ofRelation labels related).succ n ↔
      ∃ a b, labels[n]? = some a ∧ labels[m]? = some b ∧ n ≠ m ∧ related a b = true := by
  unfold Digraph.succ Digraph.ofRelation
  rw [List.getElem?_toArray, List.getElem?_map, List.getElem?_zipIdx]
  cases hn : labels[n]? with
  | none => simp
  | some a =>
      simp only [Option.map_some, List.mem_filterMap, Nat.zero_add]
      constructor
      · rintro ⟨⟨b, k⟩, hb, hif⟩
        rw [List.mem_zipIdx_iff_getElem?] at hb
        split at hif
        · rename_i hcond
          rw [Option.some.injEq] at hif
          subst hif
          simp only [ne_eq, Bool.and_eq_true, decide_eq_true_eq] at hcond
          exact ⟨a, b, rfl, hb, hcond.1, hcond.2⟩
        · exact absurd hif (by simp)
      · rintro ⟨a', b, ha, hb, hne, hrel⟩
        rw [Option.some.injEq] at ha
        subst ha
        refine ⟨(b, m), List.mem_zipIdx_iff_getElem?.mpr hb, ?_⟩
        simp [hne, hrel]

theorem label_ofRelation {α : Type} {labels : List α} {related : α → α → Bool} {n : Nat} :
    (Digraph.ofRelation labels related).label? n = labels[n]? := by
  unfold Digraph.label? Digraph.ofRelation
  rw [List.getElem?_toArray, List.getElem?_map, List.getElem?_zipIdx]
  cases labels[n]? with
  | none => rfl
  | some a => rfl

theorem size_ofRelation {α : Type} {labels : List α} {related : α → α → Bool} :
    (Digraph.ofRelation labels related).size = labels.length := by
  simp [Digraph.size, Digraph.ofRelation]

theorem LiveRange.overlaps_comm (r s : LiveRange) : r.overlaps s = s.overlaps r := by
  unfold LiveRange.overlaps
  rw [Bool.or_comm, decide_eq_decide.mpr (eq_comm (a := r.block))]

theorem Group.clashes_symm {a b : Group M} (h : a.clashes b = true) : b.clashes a = true := by
  unfold Group.clashes at h ⊢
  rw [Bool.or_eq_true, Bool.and_eq_true] at h ⊢
  rcases h with ⟨ha, hb⟩ | hoverlap
  · exact Or.inl ⟨hb, ha⟩
  · rw [List.any_eq_true] at hoverlap
    rcases hoverlap with ⟨r, hr, hoverlap⟩
    rcases List.any_eq_true.mp hoverlap with ⟨s, hs, hrs⟩
    refine Or.inr (List.any_eq_true.mpr ⟨s, hs, List.any_eq_true.mpr ⟨r, hr, ?_⟩⟩)
    rw [LiveRange.overlaps_comm]
    exact hrs

namespace Liveness

variable {l : Liveness M}

/-- Links go both ways. -/
theorem mutual_interference (l : Liveness M) : l.interference.Mutual where
  symm n m hm := by
    rcases mem_succ_ofRelation.mp hm with ⟨a, b, ha, hb, hne, hclash⟩
    exact mem_succ_ofRelation.mpr ⟨b, a, hb, ha, hne.symm, Group.clashes_symm hclash⟩
  irrefl n hn := by
    rcases mem_succ_ofRelation.mp hn with ⟨_, _, _, _, hne, _⟩
    exact hne rfl

theorem label_interference (n : Nat) : l.interference.label? n =
    l.groups[n]?.map fun regs => ⟨regs, regs.flatMap l.rangesOf⟩ := by
  rw [interference, label_ofRelation, List.getElem?_map]

theorem regs_interference {n : Nat} {group : List (Register M)} (h : l.groups[n]? = some group) :
    l.interference.regs n = group := by
  unfold Interference.regs
  rw [label_interference, h]
  rfl

theorem exists_group_of_mem_regs {n : Nat} {r : Register M} (h : r ∈ l.interference.regs n) :
    ∃ group, l.groups[n]? = some group ∧ r ∈ group := by
  cases hn : l.groups[n]? with
  | none =>
      rw [Interference.regs, label_interference, hn] at h
      exact absurd h (by simp)
  | some group =>
      rw [regs_interference hn] at h
      exact ⟨group, rfl, h⟩

theorem size_interference : l.interference.size = l.groups.length := by
  rw [interference, size_ofRelation, List.length_map]

/-- Groups with ranges that overlap are neighbours. -/
theorem mem_neighbors_of_overlap {n m : Nat} (hnm : n ≠ m) {group group' : List (Register M)}
    {r d : Register M} {a b : LiveRange} (hn : l.groups[n]? = some group) (hr : r ∈ group)
    (ha : a ∈ l.rangesOf r) (hm : l.groups[m]? = some group') (hd : d ∈ group')
    (hb : b ∈ l.rangesOf d) (hoverlap : a.overlaps b = true) :
    m ∈ l.interference.neighbors n := by
  refine mem_succ_ofRelation.mpr ⟨_, _, by rw [List.getElem?_map, hn]; rfl,
    by rw [List.getElem?_map, hm]; rfl, hnm, ?_⟩
  -- The ranges of the registers are among those of their groups.
  refine Bool.or_eq_true_iff.mpr (Or.inr (List.any_eq_true.mpr ⟨a, ?_, ?_⟩))
  · exact List.mem_flatMap.mpr ⟨r, hr, ha⟩
  · exact List.any_eq_true.mpr ⟨b, List.mem_flatMap.mpr ⟨d, hd, hb⟩, hoverlap⟩

/-- Each group holds one register. -/
def Separate (l : Liveness M) : Prop :=
  ∀ group ∈ l.groups, ∃ r, ∀ q ∈ group, q = r

/-- The register alone has a node, which is the one that a search finds. -/
theorem exists_node (hsep : l.Separate) {r : Register M} (hr : ∃ group ∈ l.groups, r ∈ group) :
    ∃ n group, l.interference.node? r = some n ∧ l.groups[n]? = some group ∧ r ∈ group ∧
      ∀ q ∈ group, q = r := by
  rcases hr with ⟨group, hgroup, hr⟩
  rcases List.getElem?_of_mem hgroup with ⟨k, hk⟩
  have hkSize := (List.getElem?_eq_some_iff.mp hk).1
  cases hnode : l.interference.node? r with
  | none =>
      -- The search goes over all nodes, and one of them holds the register.
      have hnot := List.find?_eq_none.mp hnode k
        (by rw [List.mem_range, size_interference]; exact hkSize)
      rw [regs_interference hk] at hnot
      exact absurd (List.contains_iff_mem.mpr hr) hnot
  | some n =>
      have hn : n < l.groups.length := by
        rw [← size_interference]
        exact List.mem_range.mp (List.mem_of_find?_eq_some hnode)
      have hfound := List.find?_some hnode
      rw [regs_interference (List.getElem?_eq_getElem hn)] at hfound
      have hmem := List.contains_iff_mem.mp hfound
      rcases hsep _ (List.getElem_mem hn) with ⟨q, hq⟩
      refine ⟨n, _, rfl, List.getElem?_eq_getElem hn, hmem, fun p hp => ?_⟩
      rw [hq p hp, hq r hmem]

section Complete

variable {colors : Assignment M} (hsep : l.Separate)
  (hcolors : l.interference.color = .ok (.complete colors))
include hsep hcolors

/-- In a complete coloring every register has a place, which is the color of its node. -/
theorem exists_color {r : Register M} (hr : ∃ group ∈ l.groups, r ∈ group) :
    ∃ n group p, l.groups[n]? = some group ∧ r ∈ group ∧ (∀ q ∈ group, q = r) ∧
      l.interference.own? n = r.physical? ∧ colors.lookup n = some p ∧
        colors.place l.interference r = .physical p := by
  rcases exists_node hsep hr with ⟨n, group, hnode, hgroup, hmem, hall⟩
  rcases Interference.color_complete l.mutual_interference hcolors with ⟨hown, hclass, _⟩
  have hn : n < l.interference.size := by
    rw [size_interference]
    exact (List.getElem?_eq_some_iff.mp hgroup).1
  -- The group is a list of copies of the register.
  have hcopies : ∃ k, group = List.replicate (k + 1) r := by
    cases group with
    | nil => exact absurd hmem (by simp)
    | cons q rest => exact ⟨rest.length, List.eq_replicate_iff.mpr ⟨by simp, hall⟩⟩
  rcases hcopies with ⟨k, hk⟩
  have hregs : l.interference.regs n = List.replicate (k + 1) r := by
    rw [regs_interference hgroup, hk]
  cases r with
  | physical p =>
      have hp : l.interference.own? n = some p := by
        rw [Interference.own?, hregs]
        rfl
      exact ⟨n, group, p, hgroup, hmem, hall, hp, hown n hn p hp, rfl⟩
  | virtual v =>
      have hnone : l.interference.own? n = none := by
        rw [Interference.own?, hregs, List.filterMap_replicate_of_none rfl]
        rfl
      have hcls : l.interference.class? n ≠ none := by
        rw [Interference.class?, label_interference, hgroup, hk]
        simp [Group.class?, List.replicate_succ, Register.virtual?]
      rcases hclass n hn hcls with ⟨p, hp⟩
      refine ⟨n, group, p, hgroup, hmem, hall, hnone, hp, ?_⟩
      simp only [Assignment.place]
      rw [hnode, Option.bind_some, hp]

/-- Registers with ranges that overlap are placed apart. -/
theorem place_apart {r d : Register M} (hr : ∃ group ∈ l.groups, r ∈ group)
    (hd : ∃ group ∈ l.groups, d ∈ group) (hne : r ≠ d) {a b : LiveRange} (ha : a ∈ l.rangesOf r)
    (hb : b ∈ l.rangesOf d) (hoverlap : a.overlaps b = true) :
    colors.place l.interference r ≠ colors.place l.interference d := by
  rcases exists_color hsep hcolors hr with ⟨n, group, p, hn, hrn, halln, hownn, hp, hplacer⟩
  rcases exists_color hsep hcolors hd with ⟨m, group', q, hm, hdm, hallm, hownm, hq, hplaced⟩
  have hnodes : n ≠ m := by
    rintro rfl
    rw [hn, Option.some.injEq] at hm
    subst hm
    exact hne (hallm r hrn)
  have hlink := mem_neighbors_of_overlap hnodes hn hrn ha hm hdm hb hoverlap
  rcases Interference.color_complete l.mutual_interference hcolors with ⟨_, _, hapart⟩
  -- Registers of the machine stay in their own place; any others get registers apart.
  by_cases hphysical : r.isVirtual = false ∧ d.isVirtual = false
  · cases r with
    | virtual v => exact absurd hphysical.1 (by simp [Register.isVirtual])
    | physical p' =>
        cases d with
        | virtual w => exact absurd hphysical.2 (by simp [Register.isVirtual])
        | physical q' => exact hne
  · have hfree : l.interference.own? n = none ∨ l.interference.own? m = none := by
      rw [hownn, hownm]
      cases r with
      | virtual v => exact Or.inl rfl
      | physical p' =>
          cases d with
          | virtual w => exact Or.inr rfl
          | physical q' => exact absurd ⟨rfl, rfl⟩ hphysical
    have halias := hapart n m p q hlink hp hq hfree
    rw [hplacer, hplaced]
    intro heq
    rw [Register.physical.inj heq, Machine.aliases_refl] at halias
    exact absurd halias (by simp)

end Complete

end Liveness

/-- No register is part of another. -/
def Machine.Disjoint (M : Machine) : Prop :=
  ∀ p q : M.Reg, M.family p = M.family q → p = q

namespace Machine.Disjoint

variable (hM : M.Disjoint)
include hM

theorem solitary (p : M.Reg) : (Register.physical p).Solitary := by
  intro q
  cases q with
  | virtual v => simp [Register.aliases]
  | physical q =>
      have hiff : M.family q = M.family p ↔ q = p := ⟨hM q p, fun h => by rw [h]⟩
      simp only [Register.aliases, Machine.aliases_iff, Register.physical.injEq]
      exact ⟨hiff, eq_comm.trans hiff⟩

theorem widest_eq (written : List M.Reg) (p : M.Reg) : widest written p = p :=
  hM _ p (contains_iff.mp (contains_widest written p).1).1

end Machine.Disjoint

namespace Instr.Regular

variable {i : Instr M}

theorem ties_eq_nil (h : i.Regular) : i.ties = [] := by
  cases h <;> rfl

theorem length_defs_le_one (h : i.Regular) : i.defs.length ≤ 1 := by
  cases h <;> simp

end Instr.Regular

namespace Function

variable {f : Function M} {l : Liveness M}

section Analysed

variable (hl : f.liveness = .ok l) (hin : ∀ b ∈ f.blocks, b.inputs = []) (hM : M.Disjoint)
include hl hin hM

/-- The analysis refuses a block that needs a physical register from before. -/
theorem not_exposes_physical {b : Nat} {block : Block M} (hb : f.blocks[b]? = some block)
    (p : M.Reg) : ¬ block.Exposes (.physical p) := by
  intro hexposes
  have hmem := List.mem_of_getElem? hb
  have hpending := (exposes_scan_iff (hM.solitary p) (hin block hmem)).mpr hexposes
  rcases List.mem_map.mp (Scan.isSome_lookup_iff.mp hpending) with ⟨entry, hentry, heq⟩
  unfold liveness at hl
  cases hphys : physicalLiveIn? (f.blocks.map Block.scan) with
  | some cause => simp [hphys] at hl
  | none =>
      have hscan : (f.blocks.map Block.scan)[b]? = some block.scan := by
        rw [List.getElem?_map, hb]
        rfl
      -- A pending physical register in any scan is reported.
      have hnone := findSome?_zipIdx_eq_none_iff.mp hphys b block.scan hscan
      rw [Option.map_eq_none_iff, List.head?_eq_none_iff] at hnone
      have hp : p ∈ ascending Machine.regBelow
          (block.scan.pending.filterMap fun entry => entry.1.physical?) := by
        rw [mem_ascending Machine.regBelow_apart]
        exact List.mem_filterMap.mpr ⟨entry, hentry, by rw [heq]; rfl⟩
      rw [hnone] at hp
      exact absurd hp (by simp)

theorem not_liveInto_physical (p : M.Reg) (b : Nat) : ¬ f.LiveInto (.physical p) b := by
  intro hlive
  induction hlive with
  | here hb hexposes => exact not_exposes_physical hl hin hM hb p hexposes
  | there _ _ _ ih => exact ih

theorem not_liveOutOf_physical (p : M.Reg) (b : Nat) : ¬ f.LiveOutOf (.physical p) b := by
  rintro ⟨c, _, hlive⟩
  exact not_liveInto_physical hl hin hM p c hlive

omit hl in
theorem mem_writtenPhysicals {p : M.Reg} (hdef : ∃ b, f.Defines b (.physical p)) :
    p ∈ (writtenPhysicals (f.blocks.map Block.scan)).map
      (widest (writtenPhysicals (f.blocks.map Block.scan))) := by
  refine List.mem_map.mpr ⟨p, ?_, hM.widest_eq _ p⟩
  rcases hdef with ⟨b, block, hb, hdef⟩
  have hmem := List.mem_of_getElem? hb
  have hwritten := Scan.isSome_lookup_iff.mp ((defines_scan_iff (hin block hmem)).mpr hdef)
  rcases List.mem_map.mp hwritten with ⟨entry, hentry, heq⟩
  unfold writtenPhysicals
  rw [mem_ascending Machine.regBelow_apart, List.mem_flatMap]
  refine ⟨block.scan, List.mem_map.mpr ⟨block, hmem, rfl⟩, ?_⟩
  exact List.mem_filterMap.mpr ⟨entry, hentry, by rw [heq]; rfl⟩

/-- What is written is analysed. -/
theorem mem_map_ranges {r : Register M} (hdef : ∃ b, f.Defines b r) :
    r ∈ l.ranges.map Prod.fst := by
  rw [liveness_eq hl]
  simp only [livenessOf, entries_ledgerOf, List.map_append, List.map_map, Function.comp_def,
    List.mem_append]
  cases r with
  | virtual v =>
      refine Or.inl (List.mem_map.mpr ?_)
      exact ⟨_, List.mem_map.mpr ⟨.virtual v, mem_virtuals_of_defines hin hdef, rfl⟩, rfl⟩
  | physical p =>
      refine Or.inr (List.mem_map.mpr ⟨p, ?_, rfl⟩)
      rw [mem_ascending Machine.regBelow_apart]
      exact mem_writtenPhysicals hin hM hdef

theorem rangesOf_physical {p : M.Reg} (hdef : ∃ b, f.Defines b (.physical p)) :
    l.rangesOf (.physical p) = physicalRanges (f.blocks.map Block.scan)
      (writtenPhysicals (f.blocks.map Block.scan)) p := by
  have hwritten := mem_writtenPhysicals hin hM hdef
  rw [← mem_ascending Machine.regBelow_apart] at hwritten
  have hfound := lookup_map_self (fun q : Register M => (q.physical?.map fun key =>
    physicalRanges (f.blocks.map Block.scan) (writtenPhysicals (f.blocks.map Block.scan))
      key).getD []) (List.mem_map_of_mem (f := Register.physical) hwritten)
  rw [List.map_map] at hfound
  rw [liveness_eq hl]
  simp only [Liveness.rangesOf, livenessOf, entries_ledgerOf, List.lookup_append,
    lookup_tracks_physical, Option.none_or]
  exact congrArg (fun o => Option.getD o []) hfound

omit hl hin in
/-- The ranges kept under a physical register are those of its own writes. -/
theorem physicalRanges_eq (scans : List (Scan M)) (written : List M.Reg) (p : M.Reg) :
    physicalRanges scans written p =
      scans.zipIdx.flatMap fun entry => rangesIn entry.2 (entry.1.writesOf (.physical p)) := by
  refine congrArg (fun F => scans.zipIdx.flatMap F) (funext fun entry => ?_)
  refine congrArg (rangesIn entry.2) (List.filterMap_congr fun write _ => ?_)
  obtain ⟨r, span⟩ := write
  cases r with
  | virtual v => simp
  | physical q => simp [hM.widest_eq]

omit hl in
theorem mem_physicalRanges (hreg : ∀ b ∈ f.blocks, ∀ i ∈ b.code, i.Regular) {p : M.Reg}
    (written : List M.Reg) {b a e : Nat} :
    ⟨b, a, e⟩ ∈ physicalRanges (f.blocks.map Block.scan) written p ↔
      ∃ block, f.blocks[b]? = some block ∧ ⟨a, e⟩ ∈ writeSpans (.physical p) 0 block.code := by
  -- In a block, these are the spans of the scan, which are in order already.
  have hspans : ∀ block ∈ f.blocks, ∀ c, rangesIn c (block.scan.writesOf (.physical p)) =
      (writeSpans (.physical p) 0 block.code).map (Span.inBlock c) := by
    intro block hblock c
    have honce : ∀ i ∈ block.code, i.defs.count (.physical p) ≤ 1 := fun i hi =>
      Nat.le_trans List.count_le_length (hreg block hblock i hi).length_defs_le_one
    rw [scan_eq (hin block hblock), writesOf_scanCode (hM.solitary p) 0 honce]
    exact (ascends_writeSpans (.physical p) 0 block.code).rangesIn c
  rw [physicalRanges_eq hM, List.mem_flatMap]
  constructor
  · rintro ⟨⟨scan, c⟩, hscan, hmem⟩
    rw [List.mem_zipIdx_iff_getElem?, List.getElem?_map, Option.map_eq_some_iff] at hscan
    rcases hscan with ⟨block, hblock, rfl⟩
    rw [hspans block (List.mem_of_getElem? hblock)] at hmem
    rcases List.mem_map.mp hmem with ⟨span, hspan, heq⟩
    cases heq
    exact ⟨block, hblock, hspan⟩
  · rintro ⟨block, hblock, hspan⟩
    refine ⟨(block.scan, b), ?_, ?_⟩
    · rw [List.mem_zipIdx_iff_getElem?, List.getElem?_map, hblock]
      rfl
    · rw [hspans block (List.mem_of_getElem? hblock)]
      exact List.mem_map.mpr ⟨⟨a, e⟩, hspan, rfl⟩

/-- A physical register is live from its writes only, and within their blocks. -/
theorem hasRange_physical {p : M.Reg} {b a e : Nat} :
    f.HasRange (.physical p) b a e ↔
      ∃ block, f.blocks[b]? = some block ∧ ⟨a, e⟩ ∈ writeSpans (.physical p) 0 block.code := by
  unfold HasRange
  refine exists_congr fun block => and_congr_right fun hb => ?_
  -- No physical register lives across a border, so its values stop where they are read.
  have hout := not_liveOutOf_physical hl hin hM p b
  rw [mem_writeSpans_iff]
  simp only [Nat.zero_add]
  constructor
  · rintro (⟨_, hlive, _⟩ | ⟨i, hi, hdef, hstops⟩)
    · exact absurd hlive (not_liveInto_physical hl hin hM p b)
    · exact ⟨a, i, rfl, hi, hdef, (Block.stops_iff_of_local fun h => absurd h hout).mp hstops⟩
  · rintro ⟨k, i, rfl, hi, hdef, he⟩
    exact Or.inr ⟨i, hi, hdef, (Block.stops_iff_of_local fun h => absurd h hout).mpr he⟩

/-- The ranges of a written register. -/
theorem mem_rangesOf_iff (hf : f.Tractable) (hreg : ∀ b ∈ f.blocks, ∀ i ∈ b.code, i.Regular)
    {r : Register M} (hdef : ∃ b, f.Defines b r) {b a e : Nat} :
    ⟨b, a, e⟩ ∈ l.rangesOf r ↔ f.HasRange r b a e := by
  cases r with
  | virtual v =>
      rw [rangesOf_eq hl hin hdef]
      rcases hdef with ⟨c, hdef⟩
      exact (hf.trackable hdef).mem_vregRanges
  | physical p =>
      rw [rangesOf_physical hl hin hM hdef, mem_physicalRanges hin hM hreg,
        hasRange_physical hl hin hM]

end Analysed

section Untied

variable (hreg : ∀ b ∈ f.blocks, ∀ i ∈ b.code, i.Regular) (hl : f.liveness = .ok l)
include hreg hl

omit hl in
theorem ties_eq_nil : f.ties = [] := by
  refine List.flatMap_eq_nil_iff.mpr fun b hb => List.flatMap_eq_nil_iff.mpr fun i hi => ?_
  exact (hreg b hb i (List.mem_reverse.mp hi)).ties_eq_nil

/-- Without ties, the groups are those of equal registers. -/
theorem groups_eq : l.groups = gather id (ascending Register.before (l.ranges.map Prod.fst)) := by
  rw [liveness_eq hl]
  simp only [livenessOf, tiedGroups, tiedSets, ties_eq_nil hreg, List.flatMap_nil, List.append_nil,
    List.foldl_nil]
  rfl

theorem separate : l.Separate := by
  intro group hgroup
  rw [groups_eq hreg hl] at hgroup
  exact mem_gather hgroup

theorem exists_group {r : Register M} (hr : r ∈ l.ranges.map Prod.fst) :
    ∃ group ∈ l.groups, r ∈ group := by
  rw [groups_eq hreg hl]
  exact exists_gather id ((mem_ascending Register.before_apart).mpr hr)

/-- Written registers of a function whose ranges overlap are placed apart. -/
theorem place_ne (hM : M.Disjoint) (hf : f.Tractable) {colors : Assignment M}
    (hcolors : l.interference.color = .ok (.complete colors)) {r d : Register M}
    (hr : ∃ c, f.Defines c r) (hd : ∃ c, f.Defines c d) (hne : r ≠ d) {b a e a' e' : Nat}
    (hrangeR : f.HasRange r b a e) (hrangeD : f.HasRange d b a' e')
    (hoverlap : LiveRange.overlaps ⟨b, a, e⟩ ⟨b, a', e'⟩ = true) :
    colors.place l.interference r ≠ colors.place l.interference d := by
  have hgroup : ∀ q, (∃ c, f.Defines c q) → ∃ group ∈ l.groups, q ∈ group := fun q hq =>
    exists_group hreg hl (mem_map_ranges hl hf.inputs hM hq)
  refine Liveness.place_apart (separate hreg hl) hcolors (hgroup r hr) (hgroup d hd) hne ?_ ?_
    hoverlap
  · exact (mem_rangesOf_iff hl hf.inputs hM hf hreg hr).mpr hrangeR
  · exact (mem_rangesOf_iff hl hf.inputs hM hf hreg hd).mpr hrangeD

end Untied

end Function

end RegisterColoring
