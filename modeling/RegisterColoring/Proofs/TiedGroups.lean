import Mathlib.Data.List.Induction
import Mathlib.Logic.Relation
import RegisterColoring.Proofs.Placement

/-!
# Groups of Tied Registers

A tie forces a written and a read register into one place, and ties chain: whatever
they connect has to share. The analysis keeps track of this in disjoint sets and lists
the registers set by set. Here the sets are shown to be the classes of the ties, so that
a statement about groups can be read as one about the code.

A set is known by its representative. One union gives every member of the first set the
representative of the second and leaves all others alone; this equation holds as long as
representatives stand for themselves, and it is all that is needed about unions.

## Main definitions

* `Partition.Represents`: Representatives are equal exactly for connected keys.
* `Function.TiedTo`: A chain of ties connects two registers.

## Theorems

* `Partition.Represents.union`, `Partition.represents_foldl_union`: One union, and all of them.
* `Function.mem_group_of_tiedTo`, `Function.tiedTo_of_mem_group`: The registers of a group.
* `Function.node_eq_some`: The node of a register is the one whose group holds it.
-/

namespace RegisterColoring

variable {M : Machine}

namespace Partition

variable {α : Type} [DecidableEq α] {p : Partition α} {pairs : List (α × α)}

/-- A chain of pairs, each of them either way round, leads from one key to the other. -/
def Connects (pairs : List (α × α)) : α → α → Prop :=
  Relation.EqvGen fun a b => (a, b) ∈ pairs

/-- Representatives stand for themselves, and two keys have the same one exactly when
    pairs connect them. -/
structure Represents (p : Partition α) (pairs : List (α × α)) : Prop where
  idem : ∀ x r, p.root? x = some r → p.root? r = some r
  rootD_eq_iff : ∀ x y, p.rootD x = p.rootD y ↔ Connects pairs x y

theorem rootD_of_root {x r : α} (h : p.root? x = some r) : p.rootD x = r := by
  rw [rootD, h, Option.getD_some]

theorem rootD_of_none {x : α} (h : p.root? x = none) : p.rootD x = x := by
  rw [rootD, h, Option.getD_none]

/-- A key that is no member represents no other key. -/
theorem eq_of_rootD_eq (hidem : ∀ x r, p.root? x = some r → p.root? r = some r) {a x : α}
    (hx : p.root? x = none) (h : p.rootD a = x) : a = x := by
  cases ha : p.root? a with
  | none => rw [← h, rootD_of_none ha]
  | some r =>
      rw [rootD_of_root ha] at h
      have hr := hidem a r ha
      rw [h, hx] at hr
      exact absurd hr (by simp)

/-- A union moves the first set to the representative of the second. -/
theorem rootD_union (hidem : ∀ x r, p.root? x = some r → p.root? r = some r) (a b x : α) :
    (p.union a b).rootD x = if p.rootD x = p.rootD a then p.rootD b else p.rootD x := by
  rw [rootD, root?_union]
  by_cases hab : x = a ∨ x = b
  · rw [if_pos hab, Option.getD_some]
    rcases hab with rfl | rfl
    · rw [if_pos rfl]
    · rw [ite_self]
  · rw [if_neg hab]
    cases hx : p.root? x with
    | none =>
        -- A new key is in no set, so it is not what is moved.
        have hne : x ≠ p.rootD a := fun h => hab (Or.inl (eq_of_rootD_eq hidem hx h.symm).symm)
        rw [Option.map_none, Option.getD_none, rootD_of_none hx, if_neg hne]
    | some r => rw [Option.map_some, Option.getD_some, rootD_of_root hx]

theorem root_rootD_union (hidem : ∀ x r, p.root? x = some r → p.root? r = some r) (a b : α) :
    (p.union a b).root? (p.rootD b) = some (p.rootD b) := by
  rw [root?_union]
  by_cases hcase : p.rootD b = a ∨ p.rootD b = b
  · rw [if_pos hcase]
  · rw [if_neg hcase]
    cases hb : p.root? b with
    | none => exact absurd (Or.inr (rootD_of_none hb)) hcase
    | some r =>
        rw [rootD_of_root hb, hidem b r hb, Option.map_some]
        split <;> rfl

/-- After a union, representatives still stand for themselves. -/
theorem idem_union (hidem : ∀ x r, p.root? x = some r → p.root? r = some r) (a b x r : α)
    (h : (p.union a b).root? x = some r) : (p.union a b).root? r = some r := by
  rw [root?_union] at h
  by_cases hab : x = a ∨ x = b
  · rw [if_pos hab, Option.some.injEq] at h
    rw [← h]
    exact root_rootD_union hidem a b
  · rw [if_neg hab, Option.map_eq_some_iff] at h
    rcases h with ⟨rep, hrep, hr⟩
    by_cases hmoved : rep = p.rootD a
    · rw [if_pos hmoved] at hr
      rw [← hr]
      exact root_rootD_union hidem a b
    · -- The set stays where it is, and so does its representative.
      rw [if_neg hmoved] at hr
      subst hr
      have hself := hidem x rep hrep
      have hrepa : rep ≠ a := by
        intro h
        rw [h] at hself hmoved
        exact hmoved (rootD_of_root hself).symm
      rw [root?_union]
      by_cases hrepb : rep = b
      · rw [if_pos (Or.inr hrepb), ← hrepb, rootD_of_root hself]
      · rw [if_neg (by simp [hrepa, hrepb]), hself, Option.map_some, if_neg hmoved]

namespace Represents

theorem empty : Represents (.empty : Partition α) [] where
  idem x r h := absurd h (by simp [Partition.empty, root?])
  rootD_eq_iff x y := by
    have hself : ∀ z : α, (Partition.empty : Partition α).rootD z = z := fun _ => rfl
    rw [hself, hself]
    constructor
    · rintro rfl
      exact .refl x
    · intro h
      induction h with
      | rel a b hab => exact absurd hab (by simp)
      | refl a => rfl
      | symm a b _ ih => exact ih.symm
      | trans a b c _ _ hab hbc => exact hab.trans hbc

/-- A union connects its two keys and nothing else that was apart. -/
theorem union (h : Represents p pairs) (a b : α) :
    Represents (p.union a b) (pairs ++ [(a, b)]) where
  idem := idem_union h.idem a b
  rootD_eq_iff x y := by
    have hold : ∀ {u v}, p.rootD u = p.rootD v → Connects (pairs ++ [(a, b)]) u v := by
      intro u v huv
      refine Relation.EqvGen.mono (fun c d hcd => ?_) _ _ ((h.rootD_eq_iff u v).mp huv)
      exact List.mem_append_left _ hcd
    have hnew : Connects (pairs ++ [(a, b)]) a b := .rel a b (by simp)
    rw [rootD_union h.idem, rootD_union h.idem]
    constructor
    · intro heq
      by_cases hx : p.rootD x = p.rootD a
      · by_cases hy : p.rootD y = p.rootD a
        · exact hold (hx.trans hy.symm)
        · -- One was moved to where the other is.
          rw [if_pos hx, if_neg hy] at heq
          exact .trans _ _ _ (hold hx) (.trans _ _ _ hnew (hold heq))
      · by_cases hy : p.rootD y = p.rootD a
        · rw [if_neg hx, if_pos hy] at heq
          exact .trans _ _ _ (hold heq) (.trans _ _ _ (.symm _ _ hnew) (hold hy.symm))
        · rw [if_neg hx, if_neg hy] at heq
          exact hold heq
    · intro hconn
      induction hconn with
      | rel c d hcd =>
          rcases List.mem_append.mp hcd with hcd | hcd
          · rw [(h.rootD_eq_iff c d).mpr (.rel c d hcd)]
          · obtain ⟨rfl, rfl⟩ : c = a ∧ d = b := by simpa using hcd
            rw [if_pos rfl, ite_self]
      | refl c => rfl
      | symm c d _ ih => exact ih.symm
      | trans c d e _ _ hcd hde => exact hcd.trans hde

end Represents

/-- Uniting pair after pair connects what the pairs connect. -/
theorem represents_foldl_union (pairs : List (α × α)) :
    Represents (pairs.foldl (fun sets (a, b) => sets.union a b) .empty) pairs := by
  induction pairs using List.reverseRecOn with
  | nil => exact .empty
  | append_singleton pairs pair ih =>
      rw [List.foldl_append]
      exact ih.union pair.1 pair.2

omit [DecidableEq α] in
/-- Only keys of pairs are connected to others. -/
theorem Connects.mem_pairs {x y : α} (h : Connects pairs x y) :
    x = y ∨ ((∃ pair ∈ pairs, x = pair.1 ∨ x = pair.2) ∧
      ∃ pair ∈ pairs, y = pair.1 ∨ y = pair.2) := by
  induction h with
  | rel a b hab => exact Or.inr ⟨⟨_, hab, Or.inl rfl⟩, ⟨_, hab, Or.inr rfl⟩⟩
  | refl a => exact Or.inl rfl
  | symm a b _ ih =>
      rcases ih with rfl | ⟨ha, hb⟩
      · exact Or.inl rfl
      · exact Or.inr ⟨hb, ha⟩
  | trans a b c _ _ hab hbc =>
      rcases hab with rfl | ⟨ha, hb⟩
      · exact hbc
      · rcases hbc with rfl | ⟨_, hc⟩
        · exact Or.inr ⟨ha, hb⟩
        · exact Or.inr ⟨ha, hc⟩

end Partition

namespace Function

variable {f : Function M} {l : Liveness M}

theorem mem_ties_iff {pair : Register M × Register M} :
    pair ∈ f.ties ↔ ∃ i ∈ f.instructions, pair ∈ i.ties := by
  simp only [ties, instructions, List.mem_flatMap, List.mem_reverse]
  constructor
  · rintro ⟨b, hb, i, hi, h⟩
    exact ⟨i, ⟨b, hb, hi⟩, h⟩
  · rintro ⟨i, ⟨b, hb, hi⟩, h⟩
    exact ⟨b, hb, i, hi, h⟩

/-- A chain of ties connects the registers. -/
def TiedTo (f : Function M) : Register M → Register M → Prop :=
  Partition.Connects f.ties

theorem rootD_tiedSets_iff {r q : Register M} :
    f.tiedSets.rootD r = f.tiedSets.rootD q ↔ f.TiedTo r q :=
  (Partition.represents_foldl_union f.ties).rootD_eq_iff r q

section Analysed

variable (hl : f.liveness = .ok l)
include hl

theorem groups_eq_gather : l.groups = gather f.tiedSets.rootD (ascending Register.before
    (l.ranges.map Prod.fst ++ f.ties.flatMap fun (written, read) => [written, read])) := by
  rw [liveness_eq hl]
  rfl

/-- Every register with ranges is in a group. -/
theorem exists_group_of_range {r : Register M} {a : LiveRange} (ha : a ∈ l.rangesOf r) :
    ∃ group ∈ l.groups, r ∈ group := by
  have hranges : r ∈ l.ranges.map Prod.fst := by
    by_contra hnot
    rw [Liveness.rangesOf, Scan.lookup_eq_none_of_not_mem hnot] at ha
    exact absurd ha (by simp)
  rw [groups_eq_gather hl]
  refine exists_gather _ ((mem_ascending Register.before_apart).mpr ?_)
  exact List.mem_append_left _ hranges

/-- Every register in a tie is in a group. -/
theorem exists_group_of_tie {r : Register M} (hr : ∃ pair ∈ f.ties, r = pair.1 ∨ r = pair.2) :
    ∃ group ∈ l.groups, r ∈ group := by
  rcases hr with ⟨pair, hpair, hr⟩
  rw [groups_eq_gather hl]
  refine exists_gather _ ((mem_ascending Register.before_apart).mpr ?_)
  refine List.mem_append_right _ (List.mem_flatMap.mpr ⟨pair, hpair, ?_⟩)
  simpa using hr

variable {n : Nat} {group : List (Register M)} {r : Register M}

/-- The registers of a group are tied together. -/
theorem tiedTo_of_mem_group (hn : l.groups[n]? = some group) (hr : r ∈ group) {q : Register M}
    (hq : q ∈ group) : f.TiedTo r q := by
  rw [groups_eq_gather hl] at hn
  rcases mem_gather (List.mem_of_getElem? hn) with ⟨k, hk⟩
  exact rootD_tiedSets_iff.mp ((hk r hr).trans (hk q hq).symm)

/-- Registers that are tied together are in one group. -/
theorem group_unique (hn : l.groups[n]? = some group) (hr : r ∈ group) {m : Nat}
    {group' : List (Register M)} (hm : l.groups[m]? = some group') {q : Register M}
    (hq : q ∈ group') (h : f.TiedTo r q) : n = m := by
  rw [groups_eq_gather hl] at hn hm
  exact gather_index_unique hn hm hr hq (rootD_tiedSets_iff.mpr h)

/-- What is tied to a register of a group is in the group. -/
theorem mem_group_of_tiedTo (hn : l.groups[n]? = some group) (hr : r ∈ group) {q : Register M}
    (h : f.TiedTo r q) : q ∈ group := by
  rcases Partition.Connects.mem_pairs h with rfl | ⟨_, hq⟩
  · exact hr
  · rcases exists_group_of_tie hl hq with ⟨group', hgroup', hq⟩
    rcases List.getElem?_of_mem hgroup' with ⟨m, hm⟩
    obtain rfl := group_unique hl hn hr hm hq h
    rw [hn, Option.some.injEq] at hm
    rw [hm]
    exact hq

/-- The node of a register is the one whose group holds it. -/
theorem node_eq_some (hn : l.groups[n]? = some group) (hr : r ∈ group) :
    l.interference.node? r = some n := by
  have hnSize := (List.getElem?_eq_some_iff.mp hn).1
  cases hnode : l.interference.node? r with
  | none =>
      -- The search goes over all nodes, and this one holds the register.
      have hnot := List.find?_eq_none.mp hnode n
        (by rw [List.mem_range, Liveness.size_interference]; exact hnSize)
      rw [Liveness.regs_interference hn] at hnot
      exact absurd (List.contains_iff_mem.mpr hr) hnot
  | some m =>
      have hmSize : m < l.groups.length := by
        rw [← Liveness.size_interference]
        exact List.mem_range.mp (List.mem_of_find?_eq_some hnode)
      have hm := List.getElem?_eq_getElem hmSize
      have hfound := List.find?_some hnode
      rw [Liveness.regs_interference hm] at hfound
      rw [group_unique hl hn hr hm (List.contains_iff_mem.mp hfound) (.refl r)]

end Analysed

end Function

end RegisterColoring
