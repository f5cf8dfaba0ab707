import RegisterColoring.Ascending
import RegisterColoring.Opcode

/-!
# Machines

What the allocator has to know about a machine: its registers, the classes a
virtual register may belong to, and its own opcodes beside the shared ones.

Registers of one family are windows of different widths on the same storage,
so writing any of them changes all of them. A family is named by its widest
member and its members are nested, which makes aliasing an equivalence: two
registers alias when their families are equal, and one contains the other when
it is at least as wide.

A machine's own opcodes never end a block. They may tie a result to an operand,
which forces both into one register.

## Main definitions

* `Machine`: The description of a machine.
* `Machine.contains`, `Machine.aliases`: How registers share storage.
* `Machine.aliasSet`: Everything that a write to a register changes.
* `Op`: An opcode of a machine, shared or its own.
-/

namespace RegisterColoring

/-- A machine as the allocator sees it. -/
structure Machine where
  name : String
  /-- The registers of the machine. -/
  Reg : Type
  /-- The classes that virtual registers belong to. -/
  Class : Type
  /-- The opcodes that only this machine has. -/
  Native : Type
  [decEqReg : DecidableEq Reg]
  [decEqClass : DecidableEq Class]
  [decEqNative : DecidableEq Native]
  /-- Every register once, in the order of `rank`. -/
  registers : List Reg
  regName : Reg → String
  /-- The place of a register in the order of registers. -/
  rank : Reg → Nat
  /-- The widest register on the same storage. -/
  family : Reg → Reg
  /-- The width of a register in bits. -/
  width : Reg → Nat
  className : Class → String
  /-- The place of a class in the order of classes. -/
  classRank : Class → Nat
  /-- The width in bits of a value of the class. -/
  classWidth : Class → Nat
  /-- The registers that a virtual register of the class may get, the preferred ones first. -/
  members : Class → List Reg
  /-- Every opcode of the machine's own once. -/
  natives : List Native
  nativeName : Native → String
  /-- Pairs of a result and an operand, by position, that have to share a register. -/
  tied : Native → List (Nat × Nat)
  mem_registers : ∀ r, r ∈ registers
  rank_inj : ∀ {r q}, rank r = rank q → r = q
  classRank_inj : ∀ {c d}, classRank c = classRank d → c = d
  /-- Two registers of one family and one width are the same register. -/
  window_inj : ∀ {r q}, family r = family q → width r = width q → r = q

namespace Machine

attribute [instance] decEqReg decEqClass decEqNative

variable {M : Machine}

/-- Two registers alias when they are windows on the same storage. -/
def aliases (r q : M.Reg) : Bool :=
  decide (M.family r = M.family q)

/-- Register `r` is `q` or a wider register that `q` is part of. -/
def contains (r q : M.Reg) : Bool :=
  aliases r q && decide (M.width q ≤ M.width r)

/-- The wider registers that `r` is part of, the nearest first. -/
def containers (r : M.Reg) : List M.Reg :=
  ascending (fun p q => below (M.width p) (M.width q))
    (M.registers.filter fun q => aliases r q && below (M.width r) (M.width q))

/-- The narrower registers that are part of `r`, the widest first. -/
def parts (r : M.Reg) : List M.Reg :=
  ascending (fun p q => below (M.width q) (M.width p))
    (M.registers.filter fun q => aliases r q && below (M.width q) (M.width r))

/-- The next wider register that `r` is part of. -/
def parent (r : M.Reg) : Option M.Reg :=
  (containers r).head?

/-- The registers that are directly part of `r`. -/
def subregisters (r : M.Reg) : List M.Reg :=
  M.registers.filter fun q => decide (parent q = some r)

/-- A register, what it is part of, and what is part of it. -/
def aliasSet (r : M.Reg) : List M.Reg :=
  r :: (containers r ++ parts r)

/-- The order of registers as a test. -/
def regBelow (r q : M.Reg) : Bool :=
  below (M.rank r) (M.rank q)

/-- The order of classes as a test. -/
def classBelow (c d : M.Class) : Bool :=
  below (M.classRank c) (M.classRank d)

/-- The bytes that a value of the class takes in memory. A class without a width
    still takes one. -/
def spillSize (c : M.Class) : Nat :=
  max ((M.classWidth c + 7) / 8) 1

theorem spillSize_pos (c : M.Class) : 0 < spillSize c :=
  Nat.le_max_right _ 1

theorem aliases_iff {r q : M.Reg} : aliases r q = true ↔ M.family r = M.family q :=
  decide_eq_true_iff

theorem aliases_refl (r : M.Reg) : aliases r r = true :=
  aliases_iff.mpr rfl

theorem aliases_symm {r q : M.Reg} (h : aliases r q = true) : aliases q r = true :=
  aliases_iff.mpr (aliases_iff.mp h).symm

theorem aliases_trans {p r q : M.Reg} (hpr : aliases p r = true) (hrq : aliases r q = true) :
    aliases p q = true :=
  aliases_iff.mpr ((aliases_iff.mp hpr).trans (aliases_iff.mp hrq))

theorem contains_iff {r q : M.Reg} :
    contains r q = true ↔ M.family r = M.family q ∧ M.width q ≤ M.width r := by
  rw [contains, Bool.and_eq_true, aliases_iff, decide_eq_true_iff]

theorem contains_refl (r : M.Reg) : contains r r = true :=
  contains_iff.mpr ⟨rfl, Nat.le_refl _⟩

theorem contains_trans {p r q : M.Reg} (hpr : contains p r = true) (hrq : contains r q = true) :
    contains p q = true := by
  rw [contains_iff] at hpr hrq ⊢
  exact ⟨hpr.1.trans hrq.1, Nat.le_trans hrq.2 hpr.2⟩

theorem contains_antisymm {r q : M.Reg} (hrq : contains r q = true) (hqr : contains q r = true) :
    r = q := by
  rw [contains_iff] at hrq hqr
  exact M.window_inj hrq.1 (Nat.le_antisymm hqr.2 hrq.2)

theorem aliases_of_contains {r q : M.Reg} (h : contains r q = true) : aliases r q = true :=
  aliases_iff.mpr (contains_iff.mp h).1

/-- The alias set of a register holds the registers that it aliases. -/
theorem mem_aliasSet_iff {r q : M.Reg} : q ∈ aliasSet r ↔ aliases r q = true := by
  -- Registers of one family are told apart by their widths.
  have hcontainers : q ∈ containers r ↔ aliases r q = true ∧ M.width r < M.width q := by
    refine (mem_ascending_of_apart fun p hp s hs hps hsp => ?_).trans ?_
    · rw [List.mem_filter, Bool.and_eq_true, aliases_iff] at hp hs
      exact M.window_inj (hp.2.1.symm.trans hs.2.1) (below_apart _ _ hps hsp)
    · simp [M.mem_registers, below]
  have hparts : q ∈ parts r ↔ aliases r q = true ∧ M.width q < M.width r := by
    refine (mem_ascending_of_apart fun p hp s hs hps hsp => ?_).trans ?_
    · rw [List.mem_filter, Bool.and_eq_true, aliases_iff] at hp hs
      exact M.window_inj (hp.2.1.symm.trans hs.2.1) (below_apart _ _ hsp hps)
    · simp [M.mem_registers, below]
  rw [aliasSet, List.mem_cons, List.mem_append, hcontainers, hparts]
  constructor
  · rintro (rfl | ⟨h, _⟩ | ⟨h, _⟩)
    · exact aliases_refl q
    · exact h
    · exact h
  · intro h
    rcases Nat.lt_trichotomy (M.width r) (M.width q) with hlt | heq | hlt
    · exact Or.inr (Or.inl ⟨h, hlt⟩)
    · exact Or.inl (M.window_inj (aliases_iff.mp h).symm heq.symm)
    · exact Or.inr (Or.inr ⟨h, hlt⟩)

theorem regBelow_irrefl (r : M.Reg) : ¬ regBelow r r = true := by
  simp [regBelow, below]

theorem regBelow_trans (p r q : M.Reg) (hpr : regBelow p r = true) (hrq : regBelow r q = true) :
    regBelow p q = true := by
  simp only [regBelow, below, decide_eq_true_eq] at *
  omega

theorem regBelow_apart (r q : M.Reg) (hrq : regBelow r q = false) (hqr : regBelow q r = false) :
    r = q :=
  M.rank_inj (below_apart _ _ hrq hqr)

theorem classBelow_apart (c d : M.Class) (hcd : classBelow c d = false)
    (hdc : classBelow d c = false) : c = d :=
  M.classRank_inj (below_apart _ _ hcd hdc)

end Machine

/-- An opcode of a machine. -/
inductive Op (M : Machine) where
  | common (opcode : Opcode)
  | native (opcode : M.Native)
deriving DecidableEq

namespace Op

variable {M : Machine}

def text : Op M → String
  | common o => o.text
  | native o => M.nativeName o

/-- Only shared opcodes end a block. -/
def isTerminator : Op M → Bool
  | common o => o.isTerminator
  | native _ => false

/-- The pairs of a result and an operand that have to share a register. -/
def tied : Op M → List (Nat × Nat)
  | common _ => []
  | native o => M.tied o

end Op

end RegisterColoring
