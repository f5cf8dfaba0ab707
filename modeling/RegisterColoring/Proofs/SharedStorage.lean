import RegisterColoring.JoinCopies
import RegisterColoring.Machine.X86
import RegisterColoring.Proofs.TiedGroups
import RegisterColoring.WellFormed

/-!
# Which Registers Share Storage

Coloring keeps apart the nodes whose ranges overlap, and a node stands for a whole group
of tied registers. So registers that are live at the same time are placed apart, with two
exceptions, and both come from ties. The registers of one group are placed together
whatever their ranges are. A group that holds a register of the machine is placed there
without a look at its neighbours, some of which may have come with a register of the same
family.

Code that reads the tied operand of a two-address instruction again, or writes a register
of the machine while something is tied to it, therefore has to make a copy first.

## Theorems

* `Function.exists_place`: Every register of a group has a place.
* `Function.place_of_tiedTo`: What is tied to a register of the machine is placed there.
* `Function.aliases_place_of_overlap`: When virtual registers that are live together share.
* `Function.aliases_physical_of_overlap`: When a virtual register shares with a physical one.
-/

namespace RegisterColoring

namespace Function

variable {M : Machine} {f : Function M} {l : Liveness M} {colors : Assignment M}

section Colored

variable (hl : f.liveness = .ok l) (hcolors : l.interference.color = .ok (.complete colors))
include hl hcolors

/-- Every virtual register of a group is placed in the color of its node. -/
theorem exists_place {v : VReg M} (hv : ∃ group ∈ l.groups, .virtual v ∈ group) :
    ∃ n group p, l.groups[n]? = some group ∧ .virtual v ∈ group ∧ colors.lookup n = some p ∧
      colors.place l.interference (.virtual v) = .physical p := by
  rcases hv with ⟨group, hgroup, hv⟩
  rcases List.getElem?_of_mem hgroup with ⟨n, hn⟩
  have hsize : n < l.interference.size := by
    rw [Liveness.size_interference]
    exact (List.getElem?_eq_some_iff.mp hn).1
  have hclass : l.interference.class? n ≠ none := by
    rw [Interference.class?, Liveness.label_interference, hn]
    simp only [Option.map_some, Option.bind_some, Group.class?, ne_eq, Option.map_eq_none_iff,
      List.findSome?_eq_none_iff]
    exact fun hnone => absurd (hnone _ hv) (by simp [Register.virtual?])
  rcases Interference.color_complete l.mutual_interference hcolors with ⟨_, hall, _⟩
  rcases hall n hsize hclass with ⟨p, hp⟩
  refine ⟨n, group, p, hn, hv, hp, ?_⟩
  simp only [Assignment.place]
  rw [node_eq_some hl hn hv, Option.bind_some, hp]

omit hl in
/-- A node that holds a register of the machine has that register. -/
theorem lookup_of_physical {n : Nat} {group : List (Register M)} (hn : l.groups[n]? = some group)
    {p : M.Reg} (hp : .physical p ∈ group) :
    l.interference.own? n = some p ∧ colors.lookup n = some p := by
  have hown : l.interference.own? n = some p := by
    refine Interference.own_eq_of_mem hcolors ?_
    rw [Liveness.regs_interference hn]
    exact hp
  rcases Interference.color_complete l.mutual_interference hcolors with ⟨hkept, _, _⟩
  refine ⟨hown, hkept n ?_ p hown⟩
  rw [Liveness.size_interference]
  exact (List.getElem?_eq_some_iff.mp hn).1

omit hl in
/-- The color of a node that came with a register is in its group. -/
theorem mem_group_of_own {n : Nat} {group : List (Register M)} (hn : l.groups[n]? = some group)
    {p : M.Reg} (hp : colors.lookup n = some p) (hown : l.interference.own? n ≠ none) :
    .physical p ∈ group := by
  rcases Option.ne_none_iff_exists'.mp hown with ⟨q, hq⟩
  -- The group holds a register, and with it the node keeps that register as its color.
  rw [Interference.own?, Liveness.regs_interference hn] at hq
  rcases List.mem_filterMap.mp (List.mem_of_mem_head? hq) with ⟨r, hr, hrq⟩
  cases r with
  | virtual u => exact absurd hrq (by simp [Register.physical?])
  | physical x =>
      have hcolor := (lookup_of_physical hcolors hn hr).2
      rw [hp, Option.some.injEq] at hcolor
      rw [hcolor]
      exact hr

/-- What is tied to a register of the machine is placed there. -/
theorem place_of_tiedTo {v : VReg M} {p : M.Reg} (hv : ∃ group ∈ l.groups, .virtual v ∈ group)
    (h : f.TiedTo (.virtual v) (.physical p)) :
    colors.place l.interference (.virtual v) = .physical p := by
  rcases exists_place hl hcolors hv with ⟨n, group, q, hn, hmem, hq, hplace⟩
  have hp := (lookup_of_physical hcolors hn (mem_group_of_tiedTo hl hn hmem h)).2
  rw [hq, Option.some.injEq] at hp
  rw [hplace, hp]

omit hl in
/-- Different nodes with ranges that overlap have registers apart, unless both hold one
    of the machine. -/
theorem exists_physical_of_aliases {n m : Nat} (hnm : n ≠ m) {group group' : List (Register M)}
    {r d : Register M} {a b : LiveRange} (hn : l.groups[n]? = some group) (hr : r ∈ group)
    (ha : a ∈ l.rangesOf r) (hm : l.groups[m]? = some group') (hd : d ∈ group')
    (hb : b ∈ l.rangesOf d) (hoverlap : a.overlaps b = true) {p q : M.Reg}
    (hp : colors.lookup n = some p) (hq : colors.lookup m = some q)
    (halias : Machine.aliases p q = true) :
    .physical p ∈ group ∧ .physical q ∈ group' := by
  have hlink := Liveness.mem_neighbors_of_overlap hnm hn hr ha hm hd hb hoverlap
  rcases Interference.color_complete l.mutual_interference hcolors with ⟨_, _, hapart⟩
  -- Linked nodes are kept apart as soon as one of them had to be colored.
  have hboth : ¬ (l.interference.own? n = none ∨ l.interference.own? m = none) := by
    intro hone
    rw [hapart n m p q hlink hp hq hone] at halias
    exact absurd halias (by simp)
  exact ⟨mem_group_of_own hcolors hn hp fun h => hboth (Or.inl h),
    mem_group_of_own hcolors hm hq fun h => hboth (Or.inr h)⟩

/-- Virtual registers with ranges that overlap share storage in two cases only: they are
    tied together, and then they are placed in one register, or each is tied to a register
    of the machine and these two alias. -/
theorem aliases_place_of_overlap {v w : VReg M} {a b : LiveRange}
    (ha : a ∈ l.rangesOf (.virtual v)) (hb : b ∈ l.rangesOf (.virtual w))
    (hoverlap : a.overlaps b = true) :
    ∃ p q, colors.place l.interference (.virtual v) = .physical p ∧
      colors.place l.interference (.virtual w) = .physical q ∧
        (f.TiedTo (.virtual v) (.virtual w) → p = q) ∧
        (Machine.aliases p q = true → f.TiedTo (.virtual v) (.virtual w) ∨
          ∃ p' q', f.TiedTo (.virtual v) (.physical p') ∧ f.TiedTo (.virtual w) (.physical q') ∧
            Machine.aliases p' q' = true) := by
  rcases exists_place hl hcolors (exists_group_of_range hl ha) with
    ⟨n, group, p, hn, hv, hp, hplacev⟩
  rcases exists_place hl hcolors (exists_group_of_range hl hb) with
    ⟨m, group', q, hm, hw, hq, hplacew⟩
  refine ⟨p, q, hplacev, hplacew, fun htied => ?_, fun halias => ?_⟩
  · obtain rfl := group_unique hl hn hv hm hw htied
    rw [hp, Option.some.injEq] at hq
    exact hq
  · by_cases hnm : n = m
    · subst hnm
      rw [hn, Option.some.injEq] at hm
      exact Or.inl (tiedTo_of_mem_group hl hn hv (hm ▸ hw))
    · rcases exists_physical_of_aliases hcolors hnm hn hv ha hm hw hb hoverlap hp hq halias with
        ⟨hpv, hqw⟩
      exact Or.inr ⟨p, q, tiedTo_of_mem_group hl hn hv hpv, tiedTo_of_mem_group hl hm hw hqw,
        halias⟩

end Colored

/-- A two-address addition, with its operands returned beside its result. -/
def operandReadAgain : Function x86 :=
  ⟨"f", [⟨[], [
    ⟨.common .copy, [.virtual ⟨0, X86Class.gr32⟩], [.imm 1]⟩,
    ⟨.common .copy, [.virtual ⟨1, X86Class.gr32⟩], [.imm 2]⟩,
    ⟨.native X86Op.add, [.virtual ⟨2, X86Class.gr32⟩],
      [.ofVReg ⟨0, X86Class.gr32⟩, .ofVReg ⟨1, X86Class.gr32⟩]⟩,
    ⟨.common .ret, [], [.ofVReg ⟨0, X86Class.gr32⟩, .ofVReg ⟨1, X86Class.gr32⟩,
      .ofVReg ⟨2, X86Class.gr32⟩]⟩]⟩]⟩

/-- Additions tied to two registers of one family. -/
def tiedToFamily : Function x86 :=
  ⟨"f", [⟨[], [
    ⟨.common .copy, [.physical X86Reg.eax], [.imm 1]⟩,
    ⟨.native X86Op.add, [.virtual ⟨0, X86Class.gr32⟩], [.reg (.physical X86Reg.eax), .imm 2]⟩,
    ⟨.common .copy, [.physical X86Reg.ax], [.imm 3]⟩,
    ⟨.native X86Op.add, [.virtual ⟨1, X86Class.gr16⟩], [.reg (.physical X86Reg.ax), .imm 4]⟩,
    ⟨.common .ret, [], [.ofVReg ⟨0, X86Class.gr32⟩, .ofVReg ⟨1, X86Class.gr16⟩]⟩]⟩]⟩

/-- The operands of the addition are not tied to each other. -/
theorem operandReadAgain_operands :
    ∃ l colors, operandReadAgain.liveness = .ok l ∧
      l.interference.color = .ok (.complete colors) ∧
      ∃ p q, colors.place l.interference (.virtual ⟨0, X86Class.gr32⟩) = .physical p ∧
        colors.place l.interference (.virtual ⟨1, X86Class.gr32⟩) = .physical q ∧
          (operandReadAgain.TiedTo (.virtual ⟨0, X86Class.gr32⟩) (.virtual ⟨1, X86Class.gr32⟩) →
            p = q) ∧
          (Machine.aliases p q = true →
            operandReadAgain.TiedTo (.virtual ⟨0, X86Class.gr32⟩) (.virtual ⟨1, X86Class.gr32⟩) ∨
            ∃ p' q', operandReadAgain.TiedTo (.virtual ⟨0, X86Class.gr32⟩) (.physical p') ∧
              operandReadAgain.TiedTo (.virtual ⟨1, X86Class.gr32⟩) (.physical q') ∧
                Machine.aliases p' q' = true) := by
  refine ⟨_, _, rfl, rfl, aliases_place_of_overlap (a := ⟨0, 0, 3⟩) (b := ⟨0, 1, 3⟩) rfl rfl ?_ ?_ ?_⟩
  · decide +kernel
  · decide +kernel
  · decide +kernel

/-- The tied operand of the addition and its result are live together and in one register.
    So are, in registers that alias, two sums tied to registers of one family. -/
theorem operandReadAgain_shared :
    (operandReadAgain.check = .ok () ∧
      ∃ g rest l colors a b, operandReadAgain.lowerInputs ⟨3, 0⟩ = .ok (g, rest) ∧
        g.liveness = .ok l ∧ l.interference.color = .ok (.complete colors) ∧
        a ∈ l.rangesOf (.virtual ⟨0, X86Class.gr32⟩) ∧
        b ∈ l.rangesOf (.virtual ⟨2, X86Class.gr32⟩) ∧ a.overlaps b = true ∧
        colors.place l.interference (.virtual ⟨0, X86Class.gr32⟩) = .physical X86Reg.eax ∧
        colors.place l.interference (.virtual ⟨2, X86Class.gr32⟩) = .physical X86Reg.eax) ∧
    (tiedToFamily.check = .ok () ∧
      ∃ g rest l colors a b, tiedToFamily.lowerInputs ⟨2, 0⟩ = .ok (g, rest) ∧
        g.liveness = .ok l ∧ l.interference.color = .ok (.complete colors) ∧
        a ∈ l.rangesOf (.virtual ⟨0, X86Class.gr32⟩) ∧
        b ∈ l.rangesOf (.virtual ⟨1, X86Class.gr16⟩) ∧ a.overlaps b = true ∧
        colors.place l.interference (.virtual ⟨0, X86Class.gr32⟩) = .physical X86Reg.eax ∧
        colors.place l.interference (.virtual ⟨1, X86Class.gr16⟩) = .physical X86Reg.ax ∧
        Machine.aliases (M := x86) X86Reg.eax X86Reg.ax = true) := by
  refine ⟨⟨by decide, _, _, _, _, ⟨0, 0, 3⟩, ⟨0, 2, 3⟩, rfl, rfl, rfl, ?_⟩,
    ⟨by decide, _, _, _, _, ⟨0, 1, 4⟩, ⟨0, 3, 4⟩, rfl, rfl, rfl, ?_⟩⟩
  · decide +kernel
  · decide +kernel

/-- A virtual register shares storage with a register of the machine whose range overlaps
    its own only if it is tied to one of that family, and then it is placed in the register
    it is tied to. -/
theorem aliases_physical_of_overlap (hl : f.liveness = .ok l)
    (hcolors : l.interference.color = .ok (.complete colors)) {v : VReg M} {p : M.Reg}
    {a b : LiveRange} (ha : a ∈ l.rangesOf (.virtual v)) (hb : b ∈ l.rangesOf (.physical p))
    (hoverlap : a.overlaps b = true) :
    ∃ q, colors.place l.interference (.virtual v) = .physical q ∧
      (∀ q', f.TiedTo (.virtual v) (.physical q') → q = q') ∧
        (Machine.aliases q p = true → ∃ q', f.TiedTo (.virtual v) (.physical q') ∧
          Machine.aliases q' p = true) := by
  have hv := exists_group_of_range hl ha
  rcases exists_place hl hcolors hv with ⟨n, group, q, hn, hmem, hq, hplace⟩
  refine ⟨q, hplace, fun q' htied => ?_, fun halias => ⟨q, ?_, halias⟩⟩
  · have hthere := place_of_tiedTo hl hcolors hv htied
    rw [hplace] at hthere
    exact Register.physical.inj hthere
  · rcases exists_group_of_range hl hb with ⟨group', hgroup', hp⟩
    rcases List.getElem?_of_mem hgroup' with ⟨m, hm⟩
    have hcolor := (lookup_of_physical hcolors hm hp).2
    by_cases hnm : n = m
    · -- The group holds the register itself.
      subst hnm
      rw [hn, Option.some.injEq] at hm
      rw [hq, Option.some.injEq] at hcolor
      rw [hcolor]
      exact tiedTo_of_mem_group hl hn hmem (hm ▸ hp)
    · have hheld := exists_physical_of_aliases hcolors hnm hn hmem ha hm hp hb hoverlap hq hcolor
        halias
      exact tiedTo_of_mem_group hl hn hmem hheld.1

/-- A sum of a value and a register of the machine, tied to nothing. -/
def besideRegister : Function x86 :=
  ⟨"f", [⟨[], [
    ⟨.common .copy, [.physical X86Reg.eax], [.imm 1]⟩,
    ⟨.common .copy, [.virtual ⟨0, X86Class.gr16⟩], [.imm 2]⟩,
    ⟨.common .add, [.virtual ⟨1, X86Class.gr16⟩],
      [.ofVReg ⟨0, X86Class.gr16⟩, .reg (.physical X86Reg.eax)]⟩,
    ⟨.common .ret, [], [.ofVReg ⟨1, X86Class.gr16⟩]⟩]⟩]⟩

theorem besideRegister_place :
    ∃ l colors, besideRegister.liveness = .ok l ∧
      l.interference.color = .ok (.complete colors) ∧
      ∃ q, colors.place l.interference (.virtual ⟨0, X86Class.gr16⟩) = .physical q ∧
        (∀ q', besideRegister.TiedTo (.virtual ⟨0, X86Class.gr16⟩) (.physical q') → q = q') ∧
          (Machine.aliases q X86Reg.eax = true →
            ∃ q', besideRegister.TiedTo (.virtual ⟨0, X86Class.gr16⟩) (.physical q') ∧
              Machine.aliases q' X86Reg.eax = true) := by
  refine ⟨_, _, rfl, rfl,
    aliases_physical_of_overlap (a := ⟨0, 1, 2⟩) (b := ⟨0, 0, 2⟩) rfl rfl ?_ ?_ ?_⟩
  · decide +kernel
  · decide +kernel
  · decide +kernel

/-- The register of the machine is overwritten while the sum in it is live. -/
theorem tiedToFamily_overwritten :
    (∀ b ∈ tiedToFamily.blocks, b.inputs = []) ∧
      ∃ l colors a b, tiedToFamily.liveness = .ok l ∧
        l.interference.color = .ok (.complete colors) ∧
        a ∈ l.rangesOf (.virtual ⟨0, X86Class.gr32⟩) ∧
        b ∈ l.rangesOf (.physical X86Reg.eax) ∧ a.overlaps b = true ∧
        colors.place l.interference (.virtual ⟨0, X86Class.gr32⟩) = .physical X86Reg.eax := by
  refine ⟨by decide, _, _, ⟨0, 1, 4⟩, ⟨0, 2, 3⟩, rfl, rfl, ?_⟩
  decide +kernel

end Function

end RegisterColoring
