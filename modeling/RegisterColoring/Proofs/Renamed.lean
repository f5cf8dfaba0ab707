import RegisterColoring.Proofs.Straight

/-!
# Code Under Renaming

Two passes change which registers instructions name and nothing else about them:
spilling, which reads another register in place of the spilled one, and placing,
which renames everything. An instruction under a new name does what the old one did
if each register it reads holds under its new name at least what it held before.

`Instr.Follows` states this for two instructions and two stores. It goes one way:
the renamed code may find values where the original found none, and that does not
matter, because a run of the original that returns has found all of its own.

## Main definitions

* `Operand.rename`: An operand with another register in it.
* `Instr.Follows`: A renamed instruction in a store with the renamed values.
* `Function.Parallel`: Two functions with the same blocks.
* `Exit.Alike`: The same way out of a block, in two stores.

## Theorems

* `splitBranches_rename`: Renaming keeps leading operands and branches apart.
* `Instr.Follows.result`, `Instr.Follows.saved`: Straight-line instructions follow.
* `Function.Parallel.leave`: A run of renamed terminators leaves its block the same way.
-/

namespace RegisterColoring

variable {M : Machine}

/-- The operand with register `ρ r` in place of `r`. -/
def Operand.rename (ρ : Register M → Register M) : Operand M → Operand M
  | .reg r => .reg (ρ r)
  | u => u

/-- The branch with renamed arguments. -/
def Branch.rename (ρ : Register M → Register M) (branch : Branch M) : Branch M :=
  ⟨branch.target, branch.args.map (Operand.rename ρ)⟩

/-- Leading operands and branches are renamed apart. -/
theorem splitBranches_rename (ρ : Register M → Register M) (us : List (Operand M)) :
    splitBranches (us.map (Operand.rename ρ)) =
      ((splitBranches us).1.map (Operand.rename ρ),
        (splitBranches us).2.map (Branch.rename ρ)) := by
  induction us with
  | nil => rfl
  | cons u rest ih =>
      rw [List.map_cons, splitBranches_cons, splitBranches_cons, ih]
      cases u with
      | reg r => rfl
      | imm x => rfl
      | frame slot offset => rfl
      | global name => rfl
      | block target => rfl

theorem mapM_of_map {α β : Type} {φ : α → α} {f g : α → Option β} {l : List α} {ys : List β}
    (h : ∀ a ∈ l, ∀ y, f a = some y → g (φ a) = some y) (hl : l.mapM f = some ys) :
    (l.map φ).mapM g = some ys := by
  induction l generalizing ys with
  | nil => exact hl
  | cons a l ih =>
      rw [List.mapM_cons] at hl
      cases ha : f a with
      | none => rw [ha] at hl; exact absurd hl (by simp)
      | some y =>
          cases hrest : l.mapM f with
          | none => rw [ha, hrest] at hl; exact absurd hl (by simp)
          | some zs =>
              rw [ha, hrest] at hl
              rw [List.map_cons, List.mapM_cons, h a (by simp) y ha,
                ih (fun b hb => h b (by simp [hb])) hrest]
              exact hl

namespace Instr

theorem leading_rename {i j : Instr M} {ρ : Register M → Register M}
    (h : j.uses = i.uses.map (Operand.rename ρ)) :
    j.leading = i.leading.map (Operand.rename ρ) := by
  unfold leading
  rw [h, splitBranches_rename]

theorem branches_rename {i j : Instr M} {ρ : Register M → Register M}
    (h : j.uses = i.uses.map (Operand.rename ρ)) :
    j.branches = i.branches.map (Branch.rename ρ) := by
  unfold branches
  rw [h, splitBranches_rename]

theorem reads_rename {i j : Instr M} {ρ : Register M → Register M}
    (h : j.uses = i.uses.map (Operand.rename ρ)) : j.reads = i.reads.map ρ := by
  unfold reads
  rw [h, List.filterMap_map, List.map_filterMap]
  refine List.filterMap_congr fun u _ => ?_
  cases u <;> rfl

/-- Renaming leaves the slot of an instruction alone. -/
theorem slot_rename {i j : Instr M} {ρ : Register M → Register M}
    (h : j.uses = i.uses.map (Operand.rename ρ)) : j.slot? = i.slot? := by
  unfold slot?
  rw [h]
  cases i.uses with
  | nil => rfl
  | cons u rest => cases u <;> rfl

/-- Regular instructions are told by their opcodes and results. -/
theorem Regular.congr {i j : Instr M} (h : i.Regular) (hop : j.op = i.op)
    (hdefs : j.defs = i.defs) : j.Regular := by
  obtain ⟨op, defs, uses⟩ := j
  cases h with
  | copy d _ => cases hop; cases hdefs; exact .copy d uses
  | arith o ho d _ => cases hop; cases hdefs; exact .arith o ho d uses
  | reload d _ => cases hop; cases hdefs; exact .reload d uses
  | save _ => cases hop; cases hdefs; exact .save uses
  | terminator o ho _ => cases hop; cases hdefs; exact .terminator o ho uses

/-- Instruction `j` is `i` with other registers, which hold in `t` what those of `i`
    hold in `s`. -/
structure Follows (i : Instr M) (s : Store M) (j : Instr M) (t : Store M) : Prop where
  op : j.op = i.op
  uses : ∃ ρ, j.uses = i.uses.map (Operand.rename ρ) ∧
    ∀ r ∈ i.reads, ∀ x, s.regs r = some x → t.regs (ρ r) = some x

namespace Follows

variable {i j : Instr M} {s t : Store M}

/-- An operand keeps its value. -/
theorem value {ρ : Register M → Register M}
    (hregs : ∀ r ∈ i.reads, ∀ x, s.regs r = some x → t.regs (ρ r) = some x) {u : Operand M}
    (hu : u ∈ i.uses) {x : Int64} (hx : s.value? u = some x) :
    t.value? (u.rename ρ) = some x := by
  cases u with
  | reg r => exact hregs r (mem_reads.mpr hu) x hx
  | imm y => exact hx
  | frame slot offset => exact hx
  | global name => exact hx
  | block target => exact hx

theorem operand (h : i.Follows s j t) {k : Nat} {x : Int64} (hx : i.operand? s k = some x) :
    j.operand? t k = some x := by
  rcases h.uses with ⟨ρ, huses, hregs⟩
  unfold operand? at hx ⊢
  rw [huses, List.getElem?_map]
  cases hk : i.uses[k]? with
  | none => rw [hk] at hx; exact absurd hx (by simp)
  | some u =>
      rw [hk] at hx
      exact value hregs (List.mem_of_getElem? hk) hx

/-- The leading operands keep their values. -/
theorem leading (h : i.Follows s j t) {xs : List Int64}
    (hxs : i.leading.mapM s.value? = some xs) : j.leading.mapM t.value? = some xs := by
  rcases h.uses with ⟨ρ, huses, hregs⟩
  rw [leading_rename huses]
  refine mapM_of_map (fun u hu x hx => ?_) hxs
  exact value hregs (mem_uses_iff.mpr (Or.inl hu)) hx

/-- The branches keep their targets and the values of their arguments. -/
theorem targets (h : i.Follows s j t) {taken : List (Nat × List Int64)}
    (ht : i.targets? s = some taken) : j.targets? t = some taken := by
  rcases h.uses with ⟨ρ, huses, hregs⟩
  unfold targets? at ht ⊢
  rw [branches_rename huses]
  refine mapM_of_map (fun branch hbranch y hy => ?_) ht
  rw [Option.map_eq_some_iff] at hy ⊢
  rcases hy with ⟨args, hargs, rfl⟩
  refine ⟨args, mapM_of_map (fun u hu x hx => ?_) hargs, rfl⟩
  exact value hregs (mem_uses_iff.mpr (Or.inr ⟨branch, hbranch, Or.inr hu⟩)) hx

theorem chosen (h : i.Follows s j t) (xs : List Int64) : j.chosen? xs = i.chosen? xs := by
  rw [chosen?, chosen?, h.op]

theorem slot (h : i.Follows s j t) : j.slot? = i.slot? := by
  rcases h.uses with ⟨ρ, huses, _⟩
  exact slot_rename huses

/-- The instruction computes what it computed. -/
theorem result (h : i.Follows s j t) (hslots : ∀ k, i.slot? = some k → t.slots k = s.slots k)
    {x : Int64} (hx : i.result? s = some x) : j.result? t = some x := by
  refine result_mono h.op.symm h.slot.symm (fun _ _ => h.operand) (fun k y hk hy => ?_) hx
  rw [hslots k hk]
  exact hy

theorem saved (h : i.Follows s j t) {kx : Nat × Int64} (hx : i.saved? s = some kx) :
    j.saved? t = some kx :=
  saved_mono h.slot.symm (fun _ _ => h.operand) hx

end Follows

end Instr

/-- The same way on from a terminator, in two stores. -/
inductive Effect.Alike (s t : Store M) : Effect M → Effect M → Prop where
  | next : Alike s t (.next s) (.next t)
  | enter (c : Nat) : Alike s t (.enter s c) (.enter t c)
  | done (x : Int64) : Alike s t (.done x) (.done x)

/-- The same way out of a block, in two stores. -/
inductive Exit.Alike (s t : Store M) : Exit M → Exit M → Prop where
  | enter (c : Nat) : Alike s t (.enter s c) (.enter t c)
  | done (x : Int64) : Alike s t (.done x) (.done x)

namespace Function

/-- Both functions have the same blocks, and no block of either has inputs. -/
structure Parallel (f g : Function M) : Prop where
  left : ∀ b ∈ f.blocks, b.inputs = []
  right : ∀ b ∈ g.blocks, b.inputs = []
  size : g.size = f.size

variable {f g : Function M} {s t : Store M}

theorem Parallel.goTo (h : f.Parallel g) {taken : Option (Nat × List Int64)} {e : Effect M}
    (he : Instr.goTo? f s taken = some e) :
    ∃ e', Instr.goTo? g t taken = some e' ∧ e.Alike s t e' := by
  cases taken with
  | none =>
      simp only [Instr.goTo?, Option.some.injEq] at he ⊢
      subst he
      exact ⟨_, rfl, .next⟩
  | some target =>
      obtain ⟨c, args⟩ := target
      simp only [Instr.goTo?, Option.map_eq_some_iff] at he ⊢
      rcases he with ⟨block, hblock, rfl⟩
      have hlt : c < g.blocks.length := by
        have hlt := (List.getElem?_eq_some_iff.mp hblock).1
        have hsize : g.blocks.length = f.blocks.length := h.size
        omega
      -- No block takes inputs, so entering leaves both stores as they are.
      rw [h.left block (List.mem_of_getElem? hblock), Store.setInputs_nil_left]
      refine ⟨_, ⟨_, List.getElem?_eq_getElem hlt, rfl⟩, ?_⟩
      rw [h.right _ (List.getElem_mem hlt), Store.setInputs_nil_left]
      exact .enter c

/-- A renamed terminator goes where the original goes. -/
theorem Parallel.terminator (h : f.Parallel g) {i j : Instr M} (hterm : i.isTerminator = true)
    (hfollows : i.Follows s j t) {e : Effect M} (he : i.effect? f s = some e) :
    ∃ e', j.effect? g t = some e' ∧ e.Alike s t e' := by
  have hterm' : j.isTerminator = true := by
    rw [Instr.isTerminator, hfollows.op]
    exact hterm
  rcases Instr.effect_of_terminator hterm f s with ⟨hret, heff⟩ | ⟨hjump, heff⟩
  · rcases Instr.effect_of_terminator hterm' g t with ⟨_, heff'⟩ | ⟨hjump', _⟩
    · rw [heff, Option.map_eq_some_iff] at he
      rcases he with ⟨x, hx, rfl⟩
      refine ⟨.done x, ?_, .done x⟩
      rw [heff', hfollows.operand hx]
      rfl
    · exact absurd (hfollows.op.trans hret) hjump'
  · rcases Instr.effect_of_terminator hterm' g t with ⟨hret', _⟩ | ⟨_, heff'⟩
    · exact absurd (hfollows.op.symm.trans hret') hjump
    · -- All that a jump reads it finds, so it chooses the same position.
      rw [heff] at he
      simp only [Option.bind_eq_bind, Option.bind_eq_some_iff] at he
      rcases he with ⟨leading, hlead, targets, htargets, k, hk, hgo⟩
      rw [heff', hfollows.leading hlead, hfollows.targets htargets]
      simp only [Option.bind_eq_bind, Option.bind_some, hfollows.chosen, hk]
      exact h.goTo hgo

/-- A run of renamed terminators leaves the block as the original does. -/
theorem Parallel.leave (h : f.Parallel g) {run run' : List (Instr M)}
    (hrun : List.Forall₂ (fun i j => i.isTerminator = true ∧ i.Follows s j t) run run')
    {e : Exit M} (he : f.leave? s run = some e) :
    ∃ e', g.leave? t run' = some e' ∧ e.Alike s t e' := by
  induction hrun with
  | nil => exact absurd he (by simp [leave?])
  | @cons i j run run' hhead _ ih =>
      simp only [leave?] at he ⊢
      cases heff : i.effect? f s with
      | none => rw [heff] at he; exact absurd he (by simp)
      | some effect =>
          rw [heff] at he
          rcases h.terminator hhead.1 hhead.2 heff with ⟨effect', heff', halike⟩
          rw [heff']
          -- Where control stays, the stores are unchanged and the rest of the run follows.
          cases halike with
          | next => exact ih he
          | enter c =>
              simp only [Option.some.injEq] at he ⊢
              subst he
              exact ⟨_, rfl, .enter c⟩
          | done x =>
              simp only [Option.some.injEq] at he ⊢
              subst he
              exact ⟨_, rfl, .done x⟩

end Function

end RegisterColoring
