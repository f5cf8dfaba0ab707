import Mathlib.Data.List.Sort
import RegisterColoring.Proofs.CompleteColoring
import RegisterColoring.Proofs.FamilyRanges

/-!
# Groups as Classes of Ties

The groups of the analysis are the classes of the relation that ties generate, on the
registers that have ranges or occur in a tie. They are listed in one way only: each class
ascending, and the classes in the order of their least registers. So nothing of the disjoint
sets shows in the groups, neither the order in which ties were met nor the representatives
that the unions chose.

The disjoint sets decide which registers go together, and this much is known from
`Partition.Represents`. The order comes from gathering: elements are taken in ascending order,
an element that starts a group comes behind the first elements of all groups before it, and
groups never change their first element.

## Main definitions

* `Register.Least`: The least register of a list.
* `Function.NeedsPlace`: The registers that have to be in groups.
* `Function.ListsClasses`: A list of groups is the list of classes.

## Theorems

* `heads_gather_sublist`: The first elements of groups are in the order of the list.
* `Function.mem_ranges_iff`: The registers that are followed have ranges.
* `Function.listsClasses_groups`: The groups list the classes.
* `Function.ListsClasses.unique`: There is one list of classes.
-/

namespace RegisterColoring

variable {M : Machine}

section Gather

variable {α β : Type} [DecidableEq β] {key : α → β}

/-- A group keeps its first element, and a new group starts with the new element. -/
theorem heads_addToGroup {k : β} {a : α} {groups : List (β × List α)}
    (hne : ∀ entry ∈ groups, entry.2 ≠ []) :
    (addToGroup k a groups).map (fun entry => entry.2.head?) =
        groups.map (fun entry => entry.2.head?) ∨
      (addToGroup k a groups).map (fun entry => entry.2.head?) =
        groups.map (fun entry => entry.2.head?) ++ [some a] := by
  induction groups with
  | nil => exact Or.inr rfl
  | cons entry rest ih =>
      obtain ⟨k', group⟩ := entry
      rw [List.forall_mem_cons] at hne
      unfold addToGroup
      by_cases hk : k' = k
      · -- The group is not empty, so something stands before the new element.
        rw [if_pos hk]
        refine Or.inl ?_
        rw [List.map_cons, List.map_cons, List.head?_append_of_ne_nil group hne.1]
      · rw [if_neg hk, List.map_cons, List.map_cons]
        rcases ih hne.2 with hsame | hnew
        · exact Or.inl (by rw [hsame])
        · exact Or.inr (by rw [hnew, List.cons_append])

/-- The first elements of the groups are in the order of the list. -/
theorem heads_gather_sublist (key : α → β) (l : List α) :
    ((gather key l).map List.head?).Sublist (l.map some) := by
  unfold gather
  rw [List.map_map]
  induction l using List.reverseRecOn with
  | nil => exact List.Sublist.refl _
  | append_singleton l a ih =>
      have hne : ∀ entry ∈ l.foldl (fun groups a => addToGroup (key a) a groups) [],
          entry.2 ≠ [] := fun entry hentry =>
        (sublist_of_mem_gather (List.mem_map.mpr ⟨entry, hentry, rfl⟩)).2
      rw [List.foldl_append, List.map_append]
      rcases heads_addToGroup (k := key a) (a := a) hne with hsame | hnew
      · exact (hsame ▸ ih).trans (List.sublist_append_left _ _)
      · exact hnew ▸ ih.append (List.Sublist.refl _)

end Gather

/-- Register `r` is the least of the list in the order of registers. -/
def Register.Least (regs : List (Register M)) (r : Register M) : Prop :=
  r ∈ regs ∧ ∀ q ∈ regs, q = r ∨ r.before q = true

namespace Register.Least

variable {regs : List (Register M)} {r s : Register M}

theorem unique (hr : Least regs r) (hs : Least regs s) : r = s := by
  rcases hr.2 s hs.1 with heq | hrs
  · exact heq.symm
  · rcases hs.2 r hr.1 with heq | hsr
    · exact heq
    · have hloop := before_trans r s r hrs hsr
      rw [before_irrefl] at hloop
      exact absurd hloop (by simp)

theorem of_head (h : regs.Pairwise fun r q => r.before q = true) (hr : regs.head? = some r) :
    Least regs r := by
  rcases List.head?_eq_some_iff.mp hr with ⟨rest, rfl⟩
  refine ⟨List.mem_cons_self, fun q hq => ?_⟩
  rcases List.mem_cons.mp hq with rfl | hq
  · exact Or.inl rfl
  · exact Or.inr ((List.pairwise_cons.mp h).1 q hq)

end Register.Least

/-- A sorted list has an element if the list it comes from has one. -/
theorem ascending_ne_nil {α : Type} (lt : α → α → Bool) {l : List α} (hl : l ≠ []) :
    ascending lt l ≠ [] := by
  cases l with
  | nil => exact absurd rfl hl
  | cons a l =>
      have hstep : ascending lt (a :: l) = insertAscending lt a (ascending lt l) := rfl
      rw [hstep]
      cases ascending lt l with
      | nil => simp [insertAscending]
      | cons b rest =>
          unfold insertAscending
          split
          · simp
          · split <;> simp

theorem stretch_ne_nil (last : Nat) {spans : List Span} (h : spans ≠ []) :
    stretch last spans ≠ [] := by
  cases spans with
  | nil => exact absurd rfl h
  | cons s rest =>
      unfold stretch
      split <;> simp

theorem spreadSpans_ne_nil (s : Spread) (b last : Nat) {spans : List Span} (h : spans ≠ []) :
    spreadSpans s b last spans ≠ [] := by
  unfold spreadSpans
  split
  · simp
  · split
    · exact stretch_ne_nil last h
    · exact h

/-- What a scan met is live somewhere in the block. -/
theorem Scan.spans_ne_nil {s : Scan M} {r : Register M} (h : r ∈ s.registers) :
    s.spans r ≠ [] := by
  unfold spans
  rcases List.mem_append.mp h with hpending | hwritten
  · rcases Option.isSome_iff_exists.mp (isSome_lookup_iff.mpr hpending) with ⟨e, he⟩
    simp [he]
  · rcases List.mem_map.mp hwritten with ⟨⟨q, span⟩, hentry, rfl⟩
    refine List.append_ne_nil_of_right_ne_nil _ (List.ne_nil_of_mem (a := span) ?_)
    exact List.mem_filterMap.mpr ⟨_, hentry, by simp⟩

namespace Function

variable {f : Function M} {l : Liveness M}

/-- A virtual register that is followed has ranges in the block that mentions it. -/
theorem vregRanges_ne_nil (s : Spread) {r : Register M}
    (hr : r ∈ (f.blocks.map Block.scan).flatMap Scan.registers) :
    vregRanges ((f.blocks.map Block.scan).zip (f.blocks.map Block.lastIndex)) s r ≠ [] := by
  rcases List.mem_flatMap.mp hr with ⟨scan, hscan, hr⟩
  rcases List.mem_map.mp hscan with ⟨block, hblock, rfl⟩
  rcases List.getElem?_of_mem hblock with ⟨b, hb⟩
  have hspans := spreadSpans_ne_nil s b block.lastIndex (Scan.spans_ne_nil hr)
  have hranges : rangesIn b (spreadSpans s b block.lastIndex (block.scan.spans r)) ≠ [] := by
    unfold rangesIn
    rw [Ne, List.map_eq_nil_iff]
    exact ascending_ne_nil _ hspans
  rcases List.exists_mem_of_ne_nil _ hranges with ⟨range, hrange⟩
  refine List.ne_nil_of_mem (List.mem_flatMap.mpr ⟨((block.scan, block.lastIndex), b), ?_, hrange⟩)
  rw [List.mem_zipIdx_iff_getElem?, List.getElem?_zip_eq_some, List.getElem?_map,
    List.getElem?_map, hb]
  exact ⟨rfl, rfl⟩

section Analysed

variable (hl : f.liveness = .ok l)
include hl

/-- What is followed has ranges. -/
theorem ranges_ne_nil {entry : Register M × List LiveRange} (h : entry ∈ l.ranges) :
    entry.2 ≠ [] := by
  rw [liveness_eq hl] at h
  simp only [livenessOf, entries_ledgerOf, tracks, List.map_map] at h
  rcases List.mem_append.mp h with h | h
  · rcases List.mem_map.mp h with ⟨r, hr, rfl⟩
    rw [mem_ascending Register.before_apart] at hr
    exact vregRanges_ne_nil _ (List.mem_filter.mp hr).1
  · -- Some block writes a register of the family, which gives the family a range.
    rcases List.mem_map.mp h with ⟨key, hkey, rfl⟩
    rw [mem_ascending Machine.regBelow_apart, List.mem_map] at hkey
    rcases hkey with ⟨p, hp, rfl⟩
    rcases List.mem_map.mp (mem_writtenPhysicals_iff.mp hp) with ⟨⟨p, x⟩, hwrite, rfl⟩
    exact List.ne_nil_of_mem (mem_physicalRanges_iff.mpr ⟨p, hwrite, rfl⟩)

/-- The registers that are followed are those that have ranges. -/
theorem mem_ranges_iff {r : Register M} :
    r ∈ l.ranges.map Prod.fst ↔ l.rangesOf r ≠ [] := by
  constructor
  · intro hr
    rcases Option.isSome_iff_exists.mp (Scan.isSome_lookup_iff.mpr hr) with ⟨ranges, hlookup⟩
    rcases List.lookup_eq_some_iff.mp hlookup with ⟨before, after, hsplit, _⟩
    have hentry : (r, ranges) ∈ l.ranges := by
      rw [hsplit]
      simp
    rw [Liveness.rangesOf, hlookup]
    exact ranges_ne_nil hl hentry
  · intro hr
    by_contra hnot
    rw [Liveness.rangesOf, Scan.lookup_eq_none_of_not_mem hnot] at hr
    exact hr rfl

end Analysed

/-- Register `r` has ranges, or the opcode of an instruction ties it to another. -/
def NeedsPlace (f : Function M) (l : Liveness M) (r : Register M) : Prop :=
  l.rangesOf r ≠ [] ∨ ∃ i ∈ f.instructions, ∃ pair ∈ i.ties, r = pair.1 ∨ r = pair.2

/-- The groups are the classes of the ties on the registers of `needs`, all in order. -/
structure ListsClasses (f : Function M) (needs : Register M → Prop)
    (groups : List (List (Register M))) : Prop where
  covered : ∀ r, (∃ group ∈ groups, r ∈ group) ↔ needs r
  nonempty : ∀ group ∈ groups, group ≠ []
  disjoint : groups.Pairwise List.Disjoint
  /-- A group holds what chains of ties connect to any of its registers. -/
  tied : ∀ group ∈ groups, ∀ r ∈ group, ∀ q, q ∈ group ↔ f.TiedTo r q
  ascending : ∀ group ∈ groups, group.Pairwise fun r q => r.before q = true
  ordered : groups.Pairwise fun group other =>
    ∃ r s, Register.Least group r ∧ Register.Least other s ∧ r.before s = true

namespace ListsClasses

variable {needs : Register M → Prop} {groups groups' : List (List (Register M))}

/-- A class is listed in one way. -/
theorem mem_of_mem (h : f.ListsClasses needs groups) (h' : f.ListsClasses needs groups')
    {group : List (Register M)} (hgroup : group ∈ groups) : group ∈ groups' := by
  rcases List.exists_mem_of_ne_nil _ (h.nonempty group hgroup) with ⟨r, hr⟩
  rcases (h'.covered r).mpr ((h.covered r).mp ⟨group, hgroup, hr⟩) with ⟨group', hgroup', hr'⟩
  have hirrefl : Std.Irrefl fun r q : Register M => r.before q = true :=
    ⟨fun r => by rw [Register.before_irrefl]; simp⟩
  have hanti : Std.Antisymm fun r q : Register M => r.before q = true := by
    refine ⟨fun r q hrq hqr => ?_⟩
    have hloop := Register.before_trans r q r hrq hqr
    rw [Register.before_irrefl] at hloop
    exact absurd hloop (by simp)
  have heq : group = group' :=
    (h.ascending group hgroup).eq_of_mem_iff (h'.ascending group' hgroup') fun q => by
      rw [h.tied group hgroup r hr q, h'.tied group' hgroup' r hr' q]
  rw [heq]
  exact hgroup'

/-- The classes are listed in one way. -/
theorem unique (h : f.ListsClasses needs groups) (h' : f.ListsClasses needs groups') :
    groups = groups' := by
  -- No class comes before another one that comes before it, itself included.
  have hasymm : ∀ group other : List (Register M),
      (∃ r s, Register.Least group r ∧ Register.Least other s ∧ r.before s = true) →
      ¬ ∃ r s, Register.Least other r ∧ Register.Least group s ∧ r.before s = true := by
    rintro group other ⟨r, s, hr, hs, hrs⟩ ⟨s', r', hs', hr', hsr⟩
    rw [hs'.unique hs, hr'.unique hr] at hsr
    have hloop := Register.before_trans r s r hrs hsr
    rw [Register.before_irrefl] at hloop
    exact absurd hloop (by simp)
  have hirrefl : Std.Irrefl fun group other : List (Register M) =>
      ∃ r s, Register.Least group r ∧ Register.Least other s ∧ r.before s = true :=
    ⟨fun group hself => hasymm group group hself hself⟩
  have hanti : Std.Antisymm fun group other : List (Register M) =>
      ∃ r s, Register.Least group r ∧ Register.Least other s ∧ r.before s = true :=
    ⟨fun group other hgo hog => absurd hog (hasymm group other hgo)⟩
  exact h.ordered.eq_of_mem_iff h'.ordered fun group => ⟨h.mem_of_mem h', h'.mem_of_mem h⟩

end ListsClasses

section Analysed

variable (hl : f.liveness = .ok l)
include hl

theorem exists_group_iff {r : Register M} :
    (∃ group ∈ l.groups, r ∈ group) ↔ f.NeedsPlace l r := by
  have hties : r ∈ f.ties.flatMap (fun pair => [pair.1, pair.2]) ↔
      ∃ i ∈ f.instructions, ∃ pair ∈ i.ties, r = pair.1 ∨ r = pair.2 := by
    simp only [List.mem_flatMap, mem_ties_iff, List.mem_cons, List.not_mem_nil, or_false]
    constructor
    · rintro ⟨pair, ⟨i, hi, hpair⟩, hr⟩
      exact ⟨i, hi, pair, hpair, hr⟩
    · rintro ⟨i, hi, pair, hpair, hr⟩
      exact ⟨pair, ⟨i, hi, hpair⟩, hr⟩
  rw [NeedsPlace, ← mem_ranges_iff hl, ← hties, ← List.mem_append,
    ← mem_ascending Register.before_apart, groups_eq_gather hl]
  constructor
  · rintro ⟨group, hgroup, hr⟩
    exact (sublist_of_mem_gather hgroup).1.subset hr
  · exact exists_gather _

/-- The groups come in the order of their least registers. -/
theorem pairwise_groups : l.groups.Pairwise fun group other =>
    ∃ r s, Register.Least group r ∧ Register.Least other s ∧ r.before s = true := by
  have hheads : (l.groups.map List.head?).Pairwise fun a b =>
      ∃ r s : Register M, a = some r ∧ b = some s ∧ r.before s = true := by
    rw [groups_eq_gather hl]
    refine List.Pairwise.sublist (heads_gather_sublist _ _) (List.pairwise_map.mpr ?_)
    refine (pairwise_ascending Register.before_trans _).imp fun {r s} hrs => ?_
    exact ⟨r, s, rfl, rfl, hrs⟩
  refine (List.pairwise_map.mp hheads).imp_of_mem fun {group other} hgroup hother h => ?_
  rcases List.getElem?_of_mem hgroup with ⟨n, hn⟩
  rcases List.getElem?_of_mem hother with ⟨m, hm⟩
  rcases h with ⟨r, s, hr, hs, hrs⟩
  exact ⟨r, s, .of_head (pairwise_group hl hn).1 hr, .of_head (pairwise_group hl hm).1 hs, hrs⟩

theorem listsClasses_groups : f.ListsClasses (f.NeedsPlace l) l.groups where
  covered _ := exists_group_iff hl
  nonempty group hgroup := by
    rcases List.getElem?_of_mem hgroup with ⟨n, hn⟩
    exact (pairwise_group hl hn).2
  disjoint := by
    rw [List.pairwise_iff_getElem]
    intro n m hn hm hlt r hr hr'
    have heq := group_unique hl (List.getElem?_eq_getElem hn) hr (List.getElem?_eq_getElem hm) hr'
      (.refl r)
    omega
  tied group hgroup r hr q := by
    rcases List.getElem?_of_mem hgroup with ⟨n, hn⟩
    exact ⟨fun hq => tiedTo_of_mem_group hl hn hr hq, mem_group_of_tiedTo hl hn hr⟩
  ascending group hgroup := by
    rcases List.getElem?_of_mem hgroup with ⟨n, hn⟩
    exact (pairwise_group hl hn).1
  ordered := pairwise_groups hl

/-- The groups of the analysis are the classes of the ties, listed in the one order there is. -/
theorem listsClasses_iff_eq_groups (groups : List (List (Register M))) :
    f.ListsClasses (f.NeedsPlace l) groups ↔ groups = l.groups := by
  constructor
  · exact fun h => h.unique (listsClasses_groups hl)
  · rintro rfl
    exact listsClasses_groups hl

end Analysed

/-- The tie of the addition joins the first and the third register, and the second stays between
    them alone. -/
theorem operandReadAgain_listsClasses :
    ∃ l, operandReadAgain.liveness = .ok l ∧
      operandReadAgain.ListsClasses (operandReadAgain.NeedsPlace l)
        [[.virtual ⟨0, X86Class.gr32⟩, .virtual ⟨2, X86Class.gr32⟩],
          [.virtual ⟨1, X86Class.gr32⟩]] :=
  ⟨_, rfl, (listsClasses_iff_eq_groups rfl _).mpr rfl⟩

end Function

end RegisterColoring
