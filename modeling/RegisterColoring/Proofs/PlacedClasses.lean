import RegisterColoring.Machine.X86
import RegisterColoring.Proofs.AddedCode
import RegisterColoring.Proofs.CompleteColoring
import RegisterColoring.Proofs.SupplyIndependence

/-!
# Classes of the Registers That Are Filled In

A virtual register asks for a member of its class. What it gets depends on its ties: a group
is colored as a whole, with the class of its lowest virtual register. So every register gets a
member of its own class if all ties join registers of one class. Where no register of the
machine is a member of two classes, it is so only then: a tie between two classes gives one of
its operands a register of the other's class.

Both are read off one correspondence between code and the code with spills added
(`Grows`), which needs neither fresh ids nor slots of their own. A spill keeps classes, since a
register is reloaded into one of its class, and the code it adds has no ties. So what holds of
the ties of the function handed to the allocation holds in the last round, where all
registers are placed.

## Main definitions

* `Register.Agrees`: Two registers that one register of the machine may replace.
* `Grows`: Code with registers replaced and with saves and reloads among it.
* `Function.TiesAgree`: Ties join registers of one class.
* `Function.Shares`: A register and the one that its group gets.

## Theorems

* `Grows.trans`: What grows in two steps.
* `Function.grows_spill`: A spill keeps classes.
* `Function.Grows.tiesAgree`: Ties still agree when the function has grown.
* `Workspace.Allocates.exists_last`: The function of the last round.
* `Function.compile_classes`: The classes of what a compilation fills in.
-/

namespace RegisterColoring

variable {M : Machine}

/-- No register of the machine is a member of two classes. -/
def Machine.ClassesApart (M : Machine) : Prop :=
  ∀ (c d : M.Class) (p : M.Reg), p ∈ M.members c → p ∈ M.members d → c = d

theorem classesApart_x86 : x86.ClassesApart := by
  intro c d p hc hd
  cases c <;> cases d <;> cases p <;> simp_all [X86Class.members]

namespace Register

/-- Two virtual registers of one class, or one register of the machine. -/
inductive SameClass : Register M → Register M → Prop where
  | physical (p : M.Reg) : SameClass (.physical p) (.physical p)
  | virtual {v w : VReg M} (h : w.cls = v.cls) : SameClass (.virtual v) (.virtual w)

/-- The register of the machine is a member of the class, or the register itself. -/
def Allows (p : M.Reg) : Register M → Prop
  | .physical q => q = p
  | .virtual v => p ∈ M.members v.cls

/-- What is filled in for the register is allowed. -/
def Suited (r s : Register M) : Prop :=
  ∃ p, s = .physical p ∧ r.Allows p

/-- Two registers that may be tied: both of one class, or one of the machine and a class that
    has it. Of two registers of the machine nothing is asked. -/
def Agrees : Register M → Register M → Prop
  | .virtual v, .virtual w => v.cls = w.cls
  | .virtual v, .physical p => p ∈ M.members v.cls
  | .physical p, .virtual v => p ∈ M.members v.cls
  | .physical _, .physical _ => True

instance (r s : Register M) : Decidable (r.Agrees s) :=
  match r, s with
  | .virtual v, .virtual w => inferInstanceAs (Decidable (v.cls = w.cls))
  | .virtual v, .physical p => inferInstanceAs (Decidable (p ∈ M.members v.cls))
  | .physical p, .virtual v => inferInstanceAs (Decidable (p ∈ M.members v.cls))
  | .physical _, .physical _ => inferInstanceAs (Decidable True)

variable {r s t : Register M} {p : M.Reg}

namespace SameClass

theorem refl (r : Register M) : r.SameClass r := by
  cases r with
  | physical p => exact .physical p
  | virtual v => exact .virtual rfl

theorem trans (h : r.SameClass s) (h' : s.SameClass t) : r.SameClass t := by
  cases h with
  | physical p => exact h'
  | virtual h =>
      cases h' with
      | virtual h' => exact .virtual (h'.trans h)

theorem allows_iff (h : r.SameClass s) : r.Allows p ↔ s.Allows p := by
  cases h with
  | physical q => exact Iff.rfl
  | virtual h => rw [Allows, Allows, h]

theorem suited (h : r.SameClass s) (hst : s.Suited t) : r.Suited t := by
  rcases hst with ⟨p, rfl, hp⟩
  exact ⟨p, rfl, h.allows_iff.mpr hp⟩

/-- Registers of the same classes agree as well. -/
theorem agrees {r' s' : Register M} (hr : r.SameClass r') (hs : s.SameClass s')
    (h : r.Agrees s) : r'.Agrees s' := by
  cases hr with
  | physical p =>
      cases hs with
      | physical q => trivial
      | virtual hs =>
          rw [Agrees] at h ⊢
          rwa [hs]
  | virtual hr =>
      cases hs with
      | physical q =>
          rw [Agrees] at h ⊢
          rwa [hr]
      | virtual hs =>
          rw [Agrees] at h ⊢
          rw [hr, hs, h]

end SameClass

/-- Registers that agree allow the same register, if this is the only one of the machine that
    is among them. -/
theorem Agrees.allows_iff (h : r.Agrees s) (hr : ∀ q, r = .physical q → q = p)
    (hs : ∀ q, s = .physical q → q = p) : r.Allows p ↔ s.Allows p := by
  cases r with
  | physical q =>
      obtain rfl := hr q rfl
      cases s with
      | physical q' => exact iff_of_true rfl (hs q' rfl)
      | virtual w => exact iff_of_true rfl h
  | virtual v =>
      cases s with
      | physical q =>
          obtain rfl := hs q rfl
          exact iff_of_true h rfl
      | virtual w =>
          rw [Agrees] at h
          rw [Allows, Allows, h]

/-- Registers that allow a common one agree, if classes are apart. -/
theorem agrees_of_allows (hM : M.ClassesApart) (hr : r.Allows p) (hs : s.Allows p) :
    r.Agrees s := by
  cases r with
  | physical q =>
      cases s with
      | physical q' => trivial
      | virtual w => exact hr ▸ hs
  | virtual v =>
      cases s with
      | physical q => exact hs ▸ hr
      | virtual w => exact hM v.cls w.cls p hr hs

end Register

namespace Instr

variable {R : Register M → Register M → Prop} {i j : Instr M}

theorem mem_ties {pair : Register M × Register M} : pair ∈ i.ties ↔ ∃ d u,
    (d, u) ∈ i.op.tied ∧ i.defs[d]? = some pair.1 ∧ i.uses[u]? = some (.reg pair.2) := by
  rw [ties, List.mem_filterMap]
  constructor
  · rintro ⟨⟨d, u⟩, hmem, hpair⟩
    refine ⟨d, u, hmem, ?_⟩
    dsimp only at hpair
    split at hpair
    · rename_i written read hwritten hread
      rcases Option.bind_eq_some_iff.mp hread with ⟨operand, hoperand, hreg⟩
      obtain rfl := Option.some.inj hpair
      refine ⟨hwritten, hoperand.trans (congrArg some ?_)⟩
      cases operand <;> simp_all [Operand.reg?]
    · exact absurd hpair (by simp)
  · rintro ⟨d, u, hmem, hdef, huse⟩
    refine ⟨(d, u), hmem, ?_⟩
    simp [hdef, huse, Operand.reg?]

theorem ties_of_accesses {slots : List Slot} (h : i.accesses slots = true) : i.ties = [] := by
  rw [ties]
  rcases (accesses_iff.mp h).1 with hop | hop <;> rw [hop] <;> rfl

namespace Matches

theorem flip (h : i.Matches R j) : j.Matches (fun s r => R r s) i where
  op := h.op.symm
  defs := h.defs.flip
  uses := by
    refine h.uses.flip.imp fun u w hwu => ?_
    cases hwu with
    | reg hrs => exact .reg hrs
    | fixed hnone => exact .fixed hnone

/-- Instructions that match have ties in the same places. -/
theorem exists_tie (h : i.Matches R j) {pair : Register M × Register M} (hpair : pair ∈ i.ties) :
    ∃ other ∈ j.ties, R pair.1 other.1 ∧ R pair.2 other.2 := by
  rcases mem_ties.mp hpair with ⟨d, u, hmem, hdef, huse⟩
  rcases List.getElem?_eq_some_iff.mp hdef with ⟨hd, hdef⟩
  rcases List.getElem?_eq_some_iff.mp huse with ⟨hu, huse⟩
  have hd' : d < j.defs.length := h.defs.length_eq ▸ hd
  have hu' : u < j.uses.length := h.uses.length_eq ▸ hu
  have hwritten := h.defs.get hd hd'
  have hread := h.uses.get hu hu'
  rw [List.get_eq_getElem, List.get_eq_getElem, hdef] at hwritten
  rw [List.get_eq_getElem, List.get_eq_getElem, huse] at hread
  generalize hoperand : j.uses[u] = operand at hread
  cases hread with
  | @reg _ s hrs =>
      refine ⟨(j.defs[d], s), mem_ties.mpr ⟨d, u, h.op ▸ hmem, ?_, ?_⟩, hwritten, hrs⟩
      · exact List.getElem?_eq_getElem hd'
      · exact (List.getElem?_eq_getElem hu').trans (congrArg some hoperand)
  | fixed hnone => exact absurd hnone (by simp [Operand.reg?])

end Matches

end Instr

/-- Code with registers replaced as `R` says, and with saves and reloads of the slots added
    anywhere. -/
inductive Grows (R : Register M → Register M → Prop) (slots : List Slot) :
    List (Instr M) → List (Instr M) → Prop where
  | nil : Grows R slots [] []
  | filled {i j : Instr M} (h : i.Matches R j) {code code' : List (Instr M)}
      (rest : Grows R slots code code') : Grows R slots (i :: code) (j :: code')
  | added {j : Instr M} (h : j.accesses slots = true) {code code' : List (Instr M)}
      (rest : Grows R slots code code') : Grows R slots code (j :: code')

/-- The code of a block has grown. -/
structure Block.Grows (R : Register M → Register M → Prop) (slots : List Slot) (b c : Block M) :
    Prop where
  inputs : c.inputs = b.inputs
  code : RegisterColoring.Grows R slots b.code c.code

/-- The blocks of a function have grown. -/
structure Function.Grows (R : Register M → Register M → Prop) (slots : List Slot)
    (f g : Function M) : Prop where
  name : g.name = f.name
  blocks : List.Forall₂ (Block.Grows R slots) f.blocks g.blocks

namespace Grows

variable {R S T : Register M → Register M → Prop} {slots slots' : List Slot}
  {code code' code'' : List (Instr M)}

theorem of_forall₂ (h : List.Forall₂ (Instr.Matches R) code code') : Grows R slots code code' := by
  induction h with
  | nil => exact .nil
  | cons hij _ ih => exact .filled hij ih

theorem added_append {front : List (Instr M)} (hfront : ∀ j ∈ front, j.accesses slots = true)
    (h : Grows R slots code code') : Grows R slots code (front ++ code') := by
  induction front with
  | nil => exact h
  | cons j front ih =>
      exact .added (hfront j List.mem_cons_self) (ih fun k hk => hfront k (by simp [hk]))

theorem append {rest rest' : List (Instr M)} (h : Grows R slots code code')
    (hrest : Grows R slots rest rest') : Grows R slots (code ++ rest) (code' ++ rest') := by
  induction h with
  | nil => exact hrest
  | filled hij _ ih => exact .filled hij ih
  | added hj _ ih => exact .added hj ih

/-- What grows in two steps. An instruction that was added stays one when it is filled in. -/
theorem trans (hT : ∀ r s t, R r s → S s t → T r t) (h : Grows R slots code code')
    (h' : Grows S slots' code' code'') : Grows T (slots ++ slots') code code'' := by
  induction h' generalizing code with
  | nil =>
      cases h with
      | nil => exact .nil
  | @filled j k hjk _ _ _ ih =>
      cases h with
      | filled hij rest => exact .filled (hij.trans hT hjk) (ih rest)
      | added hj rest =>
          refine .added ?_ (ih rest)
          rw [k.accesses_append, hjk.accesses, hj, Bool.true_or]
  | @added k hk _ _ _ ih =>
      refine .added ?_ (ih h)
      rw [k.accesses_append, hk, Bool.or_true]

/-- Instructions of the result are old ones or have been added. -/
theorem exists_left (h : Grows R slots code code') {j : Instr M} (hj : j ∈ code') :
    j.accesses slots = true ∨ ∃ i ∈ code, i.Matches R j := by
  induction h with
  | nil => exact absurd hj (by simp)
  | @filled i k hik code _ _ ih =>
      rcases List.mem_cons.mp hj with rfl | hj
      · exact Or.inr ⟨i, List.mem_cons_self, hik⟩
      · exact (ih hj).imp id fun ⟨i, hi, hij⟩ => ⟨i, List.mem_cons_of_mem _ hi, hij⟩
  | added hk _ ih =>
      rcases List.mem_cons.mp hj with rfl | hj
      · exact Or.inl hk
      · exact ih hj

theorem exists_right (h : Grows R slots code code') {i : Instr M} (hi : i ∈ code) :
    ∃ j ∈ code', i.Matches R j := by
  induction h with
  | nil => exact absurd hi (by simp)
  | @filled k j hkj _ code' _ ih =>
      rcases List.mem_cons.mp hi with rfl | hi
      · exact ⟨j, List.mem_cons_self, hkj⟩
      · rcases ih hi with ⟨j, hj, hij⟩
        exact ⟨j, List.mem_cons_of_mem _ hj, hij⟩
  | added _ _ ih =>
      rcases ih hi with ⟨j, hj, hij⟩
      exact ⟨j, List.mem_cons_of_mem _ hj, hij⟩

end Grows

section Spilling

variable {slot : Slot} {v : VReg M}

theorem SpillsTo.grows {code code' : List (Instr M)}
    (h : SpillsTo slot v (fun w => w.cls = v.cls) code code') :
    Grows Register.SameClass [slot] code code' := by
  induction h with
  | nil => exact .nil
  | @keep i _ _ _ _ ih =>
      exact .filled (.refl fun r _ => .refl r) (ih.added_append (accesses_saveAfter i))
  | @reload i _ w hw _ _ _ ih =>
      exact .added (accesses_reloadFrom w)
        (.filled (.readInstead .refl (.virtual hw)) (ih.added_append (accesses_saveAfter i)))

theorem Block.SpillsTo.grows {b c : Block M}
    (h : b.SpillsTo slot v (fun w => w.cls = v.cls) c) :
    b.Grows Register.SameClass [slot] c where
  inputs := h.inputs
  code := by
    rcases h.code with ⟨body, reloads, run, hbody, hrun, hcode⟩
    have hmatches := hrun.forall₂_matches Register.SameClass.refl fun w hw => .virtual hw
    rw [hcode, ← b.body_append_run, List.append_assoc]
    exact hbody.grows.append (.added_append hrun.accesses_reloads (.of_forall₂ hmatches))

end Spilling

namespace Function

/-- Ties join registers of one class. -/
def TiesAgree (f : Function M) : Prop :=
  ∀ pair ∈ f.ties, pair.1.Agrees pair.2

instance (f : Function M) : Decidable f.TiesAgree :=
  inferInstanceAs (Decidable (∀ pair ∈ f.ties, pair.1.Agrees pair.2))

/-- A register and what its group gets: the register of the machine that is tied to it, or else a
    member of the class of the lowest virtual register that is. -/
inductive Shares (f : Function M) : Register M → Register M → Prop where
  | physical (p : M.Reg) : Shares f (.physical p) (.physical p)
  | tied {v : VReg M} {p : M.Reg} (hp : f.TiedTo (.virtual v) (.physical p))
      (honly : ∀ q, f.TiedTo (.virtual v) (.physical q) → q = p) :
      Shares f (.virtual v) (.physical p)
  | lowest {v w : VReg M} {p : M.Reg} (hfree : ∀ q, ¬ f.TiedTo (.virtual v) (.physical q))
      (hw : f.TiedTo (.virtual v) (.virtual w))
      (hlowest : ∀ u, f.TiedTo (.virtual v) (.virtual u) → u = w ∨ w.before u = true)
      (hp : p ∈ M.members w.cls) : Shares f (.virtual v) (.physical p)

variable {f g : Function M} {R S T : Register M → Register M → Prop} {slots slots' : List Slot}

namespace Grows

theorem trans (hT : ∀ r s t, R r s → S s t → T r t) {e : Function M} (hfg : f.Grows R slots g)
    (hge : g.Grows S slots' e) : f.Grows T (slots ++ slots') e where
  name := hge.name.trans hfg.name
  blocks := forall₂_trans (fun _ _ _ hbc hcd =>
    ⟨hcd.inputs.trans hbc.inputs, hbc.code.trans hT hcd.code⟩) hfg.blocks hge.blocks

theorem inputs_eq_nil (h : f.Grows R slots g) (hin : ∀ b ∈ f.blocks, b.inputs = []) :
    ∀ c ∈ g.blocks, c.inputs = [] := by
  intro c hc
  rcases exists_left_of_forall₂ h.blocks hc with ⟨b, hb, hbc⟩
  rw [hbc.inputs, hin b hb]

/-- Ties of the function are still there. -/
theorem exists_tie (h : f.Grows R slots g) {pair : Register M × Register M}
    (hpair : pair ∈ f.ties) : ∃ other ∈ g.ties, R pair.1 other.1 ∧ R pair.2 other.2 := by
  rcases mem_ties_iff.mp hpair with ⟨i, hi, hpair⟩
  rcases List.mem_flatMap.mp hi with ⟨b, hb, hi⟩
  rcases exists_right_of_forall₂ h.blocks hb with ⟨c, hc, hbc⟩
  rcases hbc.code.exists_right hi with ⟨j, hj, hij⟩
  rcases hij.exists_tie hpair with ⟨other, hother, hrelated⟩
  exact ⟨other, mem_ties_iff.mpr ⟨j, mem_instructions hc hj, hother⟩, hrelated⟩

/-- The code that was added has no ties. -/
theorem exists_tie_left (h : f.Grows R slots g) {other : Register M × Register M}
    (hother : other ∈ g.ties) : ∃ pair ∈ f.ties, R pair.1 other.1 ∧ R pair.2 other.2 := by
  rcases mem_ties_iff.mp hother with ⟨j, hj, hother⟩
  rcases List.mem_flatMap.mp hj with ⟨c, hc, hj⟩
  rcases exists_left_of_forall₂ h.blocks hc with ⟨b, hb, hbc⟩
  rcases hbc.code.exists_left hj with haccess | ⟨i, hi, hij⟩
  · rw [Instr.ties_of_accesses haccess] at hother
    exact absurd hother (by simp)
  · rcases hij.flip.exists_tie hother with ⟨pair, hpair, hrelated⟩
    exact ⟨pair, mem_ties_iff.mpr ⟨i, mem_instructions hb hi, hpair⟩, hrelated⟩

/-- Ties still agree when the function has grown. -/
theorem tiesAgree (h : f.Grows Register.SameClass slots g) (hagree : f.TiesAgree) :
    g.TiesAgree := by
  intro other hother
  rcases h.exists_tie_left hother with ⟨pair, hpair, hwritten, hread⟩
  exact hwritten.agrees hread (hagree pair hpair)

/-- If what is filled in is of the right classes, and the same for tied operands, then the ties
    joined registers of one class. -/
theorem tiesAgree_of_suited (hM : M.ClassesApart) (h : f.Grows Register.Suited slots g)
    (hsame : ∀ pair ∈ g.ties, pair.1 = pair.2) : f.TiesAgree := by
  intro pair hpair
  rcases h.exists_tie hpair with ⟨other, hother, ⟨p, hp, hwritten⟩, ⟨q, hq, hread⟩⟩
  obtain rfl : p = q := by
    have heq := hsame other hother
    rw [hp, hq] at heq
    exact Register.physical.inj heq
  exact Register.agrees_of_allows hM hwritten hread

end Grows

/-- A spill keeps classes. -/
theorem grows_spill {v : VReg M} {supply : Supply} {s : Spill M}
    (hspill : f.spill v supply = .ok s) : f.Grows Register.SameClass [s.slot] s.func where
  name := by rw [(spill_eq_ok hspill).2.2.1]
  blocks := by
    have hblocks : List.Forall₂ (Block.SpillsTo s.slot v fun w => w.cls = v.cls) f.blocks
        s.func.blocks := by
      rw [(spill_eq_ok hspill).2.2.1]
      exact spillBlocks_spillsTo fun _ _ => rfl
    exact hblocks.imp fun _ _ hbc => hbc.grows

/-- Placing replaces the registers of the function and adds nothing. -/
theorem grows_place {graph : Interference M} {colors : Assignment M}
    (h : ∀ r ∈ f.registers, R r (colors.place graph r)) : f.Grows R [] (f.place graph colors) where
  name := rfl
  blocks := by
    refine List.forall₂_map_right_iff.mpr (List.forall₂_same.mpr fun b hb => ⟨rfl, ?_⟩)
    refine .of_forall₂ (List.forall₂_map_right_iff.mpr (List.forall₂_same.mpr fun i hi => ?_))
    exact .mapRegs fun r hr => h r (mem_registers_of_instr hb hi (List.mem_append.mp hr))

theorem grows_self (h : ∀ r ∈ f.registers, R r r) : f.Grows R [] f where
  name := rfl
  blocks := by
    refine List.forall₂_same.mpr fun b hb => ⟨rfl, .of_forall₂ (List.forall₂_same.mpr ?_)⟩
    intro i hi
    exact .refl fun r hr => h r (mem_registers_of_instr hb hi (List.mem_append.mp hr))

/-- Registers that ties connect allow the same register, if no other one of the machine is
    connected to them. -/
theorem TiesAgree.allows_iff (h : f.TiesAgree) {p : M.Reg} {r s : Register M} (hrs : f.TiedTo r s)
    (honly : ∀ q, f.TiedTo r (.physical q) → q = p) : r.Allows p ↔ s.Allows p := by
  induction hrs with
  | rel r s hpair =>
      refine (h (r, s) hpair).allows_iff ?_ ?_
      · rintro q rfl
        exact honly q (.refl _)
      · rintro q rfl
        exact honly q (.rel _ _ hpair)
  | refl r => exact Iff.rfl
  | symm r s hrs ih => exact (ih fun q hq => honly q (.trans _ _ _ (.symm _ _ hrs) hq)).symm
  | trans r s t hrs _ ih ih' =>
      exact (ih honly).trans (ih' fun q hq => honly q (.trans _ _ _ hrs hq))

/-- If ties agree, all registers of a group get a member of their own class. -/
theorem Shares.suited (hagree : f.TiesAgree) {r s : Register M} (h : f.Shares r s) :
    r.Suited s := by
  cases h with
  | physical p => exact ⟨p, rfl, rfl⟩
  | tied hp honly => exact ⟨_, rfl, (hagree.allows_iff hp honly).mpr rfl⟩
  | lowest hfree hw _ hp =>
      exact ⟨_, rfl, (hagree.allows_iff hw fun q hq => absurd hq (hfree q)).mpr hp⟩

section Placed

variable {l : Liveness M} {colors : Assignment M} (hl : f.liveness = .ok l)
  (hcolors : l.interference.color = .ok (.complete colors))
include hl hcolors

/-- All registers of a group are placed in its color. -/
theorem place_of_mem_group {n : Nat} {group : List (Register M)} {p : M.Reg} {r : Register M}
    (hn : l.groups[n]? = some group) (hr : r ∈ group) (hp : colors.lookup n = some p) :
    colors.place l.interference r = .physical p := by
  cases r with
  | physical q =>
      have hq := (lookup_of_physical hcolors hn hr).2
      rw [hp, Option.some.injEq] at hq
      rw [hq]
      rfl
  | virtual v =>
      rcases exists_place hl hcolors ⟨group, List.mem_of_getElem? hn, hr⟩ with
        ⟨m, group', q, hm, hv, hq, hplace⟩
      obtain rfl := group_unique hl hn hr hm hv (.refl _)
      rw [hp, Option.some.injEq] at hq
      rw [hplace, hq]

/-- Tied operands are placed in one register. -/
theorem ties_place : ∀ pair ∈ (f.place l.interference colors).ties, pair.1 = pair.2 := by
  intro pair hpair
  have hgrows : f.Grows (fun r s => s = colors.place l.interference r) []
      (f.place l.interference colors) := grows_place fun _ _ => rfl
  rcases hgrows.exists_tie_left hpair with ⟨⟨r, q⟩, htie, hwritten, hread⟩
  rcases exists_group_of_tie hl ⟨_, htie, Or.inl rfl⟩ with ⟨group, hgroup, hr⟩
  rcases List.getElem?_of_mem hgroup with ⟨n, hn⟩
  have hq := mem_group_of_tiedTo hl hn hr (.rel _ _ htie)
  have hsize : n < l.interference.size := by
    rw [Liveness.size_interference]
    exact (List.getElem?_eq_some_iff.mp hn).1
  rcases exists_color_of_lt hl hcolors hsize with ⟨p, hp⟩
  rw [hwritten, hread, place_of_mem_group hl hcolors hn hr hp,
    place_of_mem_group hl hcolors hn hq hp]

/-- A register is placed where its group is. -/
theorem shares_place (hin : ∀ b ∈ f.blocks, b.inputs = []) {r : Register M}
    (hr : r ∈ f.registers) : f.Shares r (colors.place l.interference r) := by
  cases r with
  | physical p => exact .physical p
  | virtual v =>
      rcases exists_place hl hcolors (exists_group_of_virtual hin hl hr) with
        ⟨n, group, p, hn, hv, hp, hplace⟩
      have hcolored := coloredBy_of_color hl hcolors
      have hregs : l.interference.regs n = group := Liveness.regs_interference hn
      rw [hplace]
      by_cases hfixed : l.interference.HoldsPhysical n
      · -- The group holds a register of the machine, which is its color.
        rcases hfixed with ⟨q, hq⟩
        obtain rfl := hcolored.kept n p q hp hq
        rw [hregs] at hq
        refine .tied (tiedTo_of_mem_group hl hn hv hq) fun q' hq' => ?_
        have hmem := mem_group_of_tiedTo hl hn hv hq'
        exact (hcolored.kept n p q' hp (hregs ▸ hmem)).symm
      · rcases hcolored.allowed n p hp hfixed with ⟨w, ⟨hw, hlowest⟩, hmem⟩
        rw [hregs] at hw hlowest
        refine .lowest (fun q hq => hfixed ⟨q, ?_⟩) (tiedTo_of_mem_group hl hn hv hw) ?_ hmem
        · rw [hregs]
          exact mem_group_of_tiedTo hl hn hv hq
        · exact fun u hu => hlowest u (mem_group_of_tiedTo hl hn hv hu)

end Placed

end Function

/-- The rounds of an allocation end with a function that has grown from the first one and is
    colored. -/
theorem Workspace.Allocates.exists_last {w out : Workspace M} {slots : List Slot}
    (h : w.Allocates slots out) (hin : ∀ b ∈ w.func.blocks, b.inputs = []) :
    ∃ g l colors, w.func.Grows Register.SameClass slots g ∧ (∀ b ∈ g.blocks, b.inputs = []) ∧
      g.liveness = .ok l ∧ l.interference.color = .ok (.complete colors) ∧
        out.func = g.place l.interference colors := by
  induction h with
  | @placed w l colors hl hcolors =>
      exact ⟨w.func, l, colors, Function.grows_self fun r _ => .refl r, hin, hl, hcolors, rfl⟩
  | spilled _ hspill _ ih =>
      have hgrows := Function.grows_spill hspill
      rcases ih (hgrows.inputs_eq_nil hin) with ⟨g, l, colors, hrest, hg⟩
      have hboth := hgrows.trans (fun _ _ _ hrs hst => hrs.trans hst) hrest
      exact ⟨g, l, colors, hboth, hg⟩

namespace Function

variable {f : Function M} {options : Options} {supply : Supply} {summary : Summary}

/-- A compilation that succeeds ends with an allocation that does. -/
theorem exists_allocate_of_compile (hok : (f.compile options supply).result = .ok summary) :
    ∃ g rest, f.lowerIf options supply = .ok (g, rest) ∧
      (g.allocate rest).result = .ok summary ∧
        (f.compile options supply).workspace = (g.allocate rest).workspace := by
  cases hcheck : f.checkIf options with
  | error cause => simp [compile, hcheck] at hok
  | ok u =>
      cases hlower : f.lowerIf options supply with
      | error cause => simp [compile, hcheck, hlower] at hok
      | ok lowered =>
          rcases compile_of_lowerIf hcheck hlower with ⟨hresult, hworkspace⟩
          rw [hresult] at hok
          exact ⟨lowered.1, lowered.2, rfl, hok, hworkspace summary hok⟩

/-- An allocation has nothing to do, or it places the registers of a function that has grown
    from the one it was given. -/
theorem allocate_grows (hok : (f.allocate supply).result = .ok summary) :
    (f.hasVirtual = false ∧ summary.slots = [] ∧ (f.allocate supply).workspace.func = f) ∨
      ∃ g l colors, f.Grows Register.SameClass summary.slots g ∧
        (∀ b ∈ g.blocks, b.inputs = []) ∧ g.liveness = .ok l ∧
          l.interference.color = .ok (.complete colors) ∧
            (f.allocate supply).workspace.func = g.place l.interference colors := by
  by_cases hvirtual : f.hasVirtual = true
  · have hin : ∀ b ∈ f.blocks, b.inputs = [] := by
      refine inputs_of_remainingInput ?_
      rw [allocate, if_pos hvirtual] at hok
      cases hinput : f.remainingInput? with
      | none => rfl
      | some cause => simp [hinput] at hok
    rcases allocate_cases hok with ⟨hnone, _⟩ | hrounds
    · rw [hnone] at hvirtual
      exact absurd hvirtual (by simp)
    · exact Or.inr (hrounds.exists_last hin)
  · rw [allocate, if_neg hvirtual] at hok ⊢
    obtain rfl := Except.ok.inj hok
    exact Or.inl ⟨by simpa using hvirtual, rfl, rfl⟩

/-- What an allocation fills in is what the groups of the last round get. If the ties of the
    function agree, this is of the class of each register, and if classes are apart, only then. -/
theorem allocate_classes (hok : (f.allocate supply).result = .ok summary) :
    (∃ g, f.Grows Register.SameClass summary.slots g ∧
        g.Grows g.Shares [] (f.allocate supply).workspace.func) ∧
      (f.TiesAgree → f.Grows Register.Suited summary.slots (f.allocate supply).workspace.func) ∧
        (M.ClassesApart → f.Grows Register.Suited summary.slots
          (f.allocate supply).workspace.func → f.TiesAgree) := by
  rcases allocate_grows hok with
    ⟨hnone, hslots, hout⟩ | ⟨g, l, colors, hgrows, hin, hl, hcolors, hout⟩
  · -- Without virtual registers everything stays, and no tie joins classes.
    have hphysical : ∀ r ∈ f.registers, ∃ p, r = .physical p := by
      intro r hr
      cases r with
      | physical p => exact ⟨p, rfl⟩
      | virtual v => exact absurd rfl (List.any_eq_false.mp hnone _ hr)
    rw [hslots, hout]
    refine ⟨⟨f, grows_self fun r _ => .refl r, grows_self fun r hr => ?_⟩,
      fun _ => grows_self fun r hr => ?_, fun _ _ pair hpair => ?_⟩
    · rcases hphysical r hr with ⟨p, rfl⟩
      exact .physical p
    · rcases hphysical r hr with ⟨p, rfl⟩
      exact ⟨p, rfl, rfl⟩
    · rcases mem_registers_of_tie hpair with ⟨hwritten, hread⟩
      rcases hphysical _ hwritten with ⟨p, hp⟩
      rcases hphysical _ hread with ⟨q, hq⟩
      rw [hp, hq]
      trivial
  · rw [hout]
    have hshares : g.Grows g.Shares [] (g.place l.interference colors) :=
      grows_place fun r hr => shares_place hl hcolors hin hr
    refine ⟨⟨g, hgrows, hshares⟩, fun hagree => ?_, fun hM hsuited => ?_⟩
    · -- The ties of the last round are those of the function, with other registers.
      have hlast := hgrows.tiesAgree hagree
      have hboth := hgrows.trans (fun _ _ _ hrs hst => hrs.suited (hst.suited hlast)) hshares
      rwa [List.append_nil] at hboth
    · exact hsuited.tiesAgree_of_suited hM (ties_place hl hcolors)

/-- A compilation that succeeds fills in, for every operand of the function it allocates, a
    register of the group that the operand is in after the last spill. This is a member of the
    operand's own class if ties join registers of one class, and where classes are apart, only
    then. -/
theorem compile_classes (hok : (f.compile options supply).result = .ok summary) :
    ∃ g rest, f.lowerIf options supply = .ok (g, rest) ∧
      (∃ e, g.Grows Register.SameClass summary.slots e ∧
        e.Grows e.Shares [] (f.compile options supply).workspace.func) ∧
      (g.TiesAgree →
        g.Grows Register.Suited summary.slots (f.compile options supply).workspace.func) ∧
      (M.ClassesApart → g.Grows Register.Suited summary.slots
        (f.compile options supply).workspace.func → g.TiesAgree) := by
  rcases exists_allocate_of_compile hok with ⟨g, rest, hlower, hallocate, hworkspace⟩
  rw [hworkspace]
  exact ⟨g, rest, hlower, allocate_classes hallocate⟩

/-- Four values for three registers, and ties within the class. -/
def tiedChain : Function x86 :=
  let r (k : Nat) : VReg x86 := ⟨k, X86Class.gr32⟩
  let add (d u : Nat) (other : Operand x86) : Instr x86 :=
    ⟨.native X86Op.add, [.virtual (r d)], [.ofVReg (r u), other]⟩
  ⟨"f", [⟨[], [Sample.assign .copy (r 0) [.imm 1], Sample.assign .copy (r 1) [.imm 2],
    Sample.assign .copy (r 2) [.imm 3], add 3 0 (.imm 4), Sample.assign .copy (r 4) [.imm 5],
    add 5 3 (.ofVReg (r 4)), add 6 1 (.ofVReg (r 5)), add 7 6 (.ofVReg (r 2)),
    Sample.perform .ret [.ofVReg (r 7)]]⟩]⟩

/-- A register is spilled and reloaded into one that is tied. -/
theorem tiedChain_classes :
    (tiedChain.compile {} ⟨8, 0⟩).result = .ok ⟨2, [1], [⟨0, 4⟩]⟩ ∧
      ∃ g rest, tiedChain.lowerIf {} ⟨8, 0⟩ = .ok (g, rest) ∧ g.TiesAgree ∧
        g.Grows Register.Suited [⟨0, 4⟩] (tiedChain.compile {} ⟨8, 0⟩).workspace.func := by
  have hok : (tiedChain.compile {} ⟨8, 0⟩).result = .ok ⟨2, [1], [⟨0, 4⟩]⟩ := by decide +kernel
  rcases compile_classes hok with ⟨g, rest, hlower, _, hsuited, _⟩
  have hagree : g.TiesAgree := by
    obtain ⟨rfl, _⟩ := Prod.mk.inj (Except.ok.inj hlower)
    decide +kernel
  exact ⟨hok, g, rest, hlower, hagree, hsuited hagree⟩

/-- A tie between two widths. -/
def tiedWidths : Function x86 :=
  let narrow : VReg x86 := ⟨0, X86Class.gr16⟩
  let wide : VReg x86 := ⟨1, X86Class.gr32⟩
  ⟨"f", [⟨[], [Sample.assign .copy narrow [.imm 1],
    ⟨.native X86Op.add, [.virtual wide], [.ofVReg narrow, .imm 2]⟩,
    Sample.perform .ret [.ofVReg wide]]⟩]⟩

/-- Both registers are placed in the narrow one, whatever slots there are. -/
theorem tiedWidths_unsuited :
    tiedWidths.check = .ok () ∧ (∀ r ∈ tiedWidths.registers, r.physical? = none) ∧
      (tiedWidths.compile {} ⟨2, 0⟩).result = .ok ⟨1, [], []⟩ ∧
      ∃ g rest, tiedWidths.lowerIf {} ⟨2, 0⟩ = .ok (g, rest) ∧
        ∀ slots, ¬ g.Grows Register.Suited slots (tiedWidths.compile {} ⟨2, 0⟩).workspace.func := by
  refine ⟨by decide, by decide, by decide +kernel, _, _, rfl, fun slots hsuited => ?_⟩
  have hsame : ∀ pair ∈ (tiedWidths.compile {} ⟨2, 0⟩).workspace.func.ties, pair.1 = pair.2 := by
    decide +kernel
  have hagree := hsuited.tiesAgree_of_suited classesApart_x86 hsame
  exact absurd hagree (by decide +kernel)

end Function

end RegisterColoring
