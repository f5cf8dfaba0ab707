import RegisterColoring.Proofs.Passage

/-!
# Straight-Line Code and Jumps

What the instructions of a block do, in the form in which two functions are
compared. Straight-line code does not depend on the function around it:
`Instr.result?` is what such an instruction computes, as far as it computes
anything, and instructions with one opcode and the same operand values have one
result. A jump reads its operands and then goes to the target whose position
`Instr.chosen?` gives, so two jumps that read the same choose the same position.

`Instr.Regular` says that the registers an instruction lists are those that
running it writes. Without it a definition would promise a value that no run
delivers.

## Main definitions

* `Instr.Regular`: The registers of an instruction are those that running it writes.
* `Instr.result?`, `Instr.saved?`: What a straight-line instruction computes or saves.
* `Instr.chosen?`: Which of its targets a jump goes to.
* `Function.pass?`: Run straight-line code.

## Theorems

* `Instr.effect_of_regular`: The cases of a straight-line instruction.
* `Instr.effect_of_terminator`: The cases of a terminator.
* `Instr.effect_of_jump`: What a jump does whose arguments have values.
* `Instr.result_mono`: Equal operands give equal results.
* `Function.leave_append`: Straight-line code is passed before what follows it.
* `Function.pass_regs`: What passing code does to the registers.
* `Function.terminator_cases`: What a terminator can do.
-/

namespace RegisterColoring

variable {M : Machine}

/-- What is collected from a list stands where it came from. -/
theorem getElem?_of_mapM {α β : Type} {f : α → Option β} {l : List α} {ys : List β}
    (h : l.mapM f = some ys) (k : Nat) : ys[k]? = l[k]?.bind f := by
  induction l generalizing ys k with
  | nil =>
      have hys : ys = [] := by simpa using h.symm
      simp [hys]
  | cons a l ih =>
      rw [List.mapM_cons] at h
      simp only [Option.bind_eq_bind, Option.bind_eq_some_iff] at h
      rcases h with ⟨y, hy, rest, hrest, heq⟩
      have hys : ys = y :: rest := by simpa using heq.symm
      rw [hys]
      cases k with
      | zero => simp [hy]
      | succ k => simpa using ih hrest k

theorem length_of_mapM {α β : Type} {f : α → Option β} {l : List α} {ys : List β}
    (h : l.mapM f = some ys) : ys.length = l.length := by
  induction l generalizing ys with
  | nil =>
      have hys : ys = [] := by simpa using h.symm
      simp [hys]
  | cons a l ih =>
      rw [List.mapM_cons] at h
      simp only [Option.bind_eq_bind, Option.bind_eq_some_iff] at h
      rcases h with ⟨y, _, rest, hrest, heq⟩
      have hys : ys = y :: rest := by simpa using heq.symm
      rw [hys, List.length_cons, List.length_cons, ih hrest]

theorem isSome_mapM {α β : Type} {f : α → Option β} {l : List α} (h : ∀ a ∈ l, (f a).isSome) :
    (l.mapM f).isSome := by
  induction l with
  | nil => simp
  | cons a l ih =>
      rcases Option.isSome_iff_exists.mp (h a (by simp)) with ⟨y, hy⟩
      rcases Option.isSome_iff_exists.mp (ih fun b hb => h b (by simp [hb])) with ⟨ys, hys⟩
      simp [List.mapM_cons, hy, hys]

theorem mapM_congr {α β : Type} {f g : α → Option β} {l : List α} (h : ∀ a ∈ l, f a = g a) :
    l.mapM f = l.mapM g := by
  induction l with
  | nil => rfl
  | cons a l ih =>
      rw [List.mapM_cons, List.mapM_cons, h a (by simp), ih fun b hb => h b (by simp [hb])]

namespace Instr

/-- The registers of an instruction are exactly what running it writes: one for
    what computes or loads a value, none for what saves one or ends a block. -/
inductive Regular : Instr M → Prop where
  | copy (d : Register M) (uses : List (Operand M)) : Regular ⟨.common .copy, [d], uses⟩
  | arith (o : Opcode) (ho : o = .add ∨ o = .sub ∨ o = .mul) (d : Register M)
      (uses : List (Operand M)) : Regular ⟨.common o, [d], uses⟩
  | reload (d : Register M) (uses : List (Operand M)) : Regular ⟨.common .reload, [d], uses⟩
  | save (uses : List (Operand M)) : Regular ⟨.common .save, [], uses⟩
  | terminator (o : Opcode) (ho : o.isTerminator = true) (uses : List (Operand M)) :
      Regular ⟨.common o, [], uses⟩

/-- What a straight-line instruction computes or loads. -/
def result? (i : Instr M) (s : Store M) : Option Int64 :=
  match i.op with
  | .common .copy => i.operand? s 0
  | .common .add => do return (← i.operand? s 0) + (← i.operand? s 1)
  | .common .sub => do return (← i.operand? s 0) - (← i.operand? s 1)
  | .common .mul => do return (← i.operand? s 0) * (← i.operand? s 1)
  | .common .reload => do s.slots (← i.slot?)
  | _ => none

/-- What a save stores, and where. -/
def saved? (i : Instr M) (s : Store M) : Option (Nat × Int64) := do
  return (← i.slot?, ← i.operand? s 1)

/-- The cases of a straight-line instruction: it computes a value for its one
    register, or it saves a value. -/
theorem effect_of_regular {i : Instr M} (hreg : i.Regular) (hterm : i.isTerminator = false)
    (f : Function M) (s : Store M) :
    (∃ d, i.op ≠ .common .save ∧ i.defs = [d] ∧
        i.effect? f s = (i.result? s).map fun x => .next (s.setReg d x)) ∨
      (i.op = .common .save ∧ i.defs = [] ∧
        i.effect? f s = (i.saved? s).map fun kx => .next (s.setSlot kx.1 kx.2)) := by
  cases hreg with
  | copy d uses =>
      refine Or.inl ⟨d, by simp, rfl, ?_⟩
      simp only [effect?, result?]
      cases operand? _ s 0 <;> rfl
  | arith o ho d uses =>
      refine Or.inl ⟨d, by rcases ho with rfl | rfl | rfl <;> simp, rfl, ?_⟩
      rcases ho with rfl | rfl | rfl <;> simp only [effect?, result?, compute?] <;>
        cases operand? _ s 0 <;> cases operand? _ s 1 <;> rfl
  | reload d uses =>
      refine Or.inl ⟨d, by simp, rfl, ?_⟩
      simp only [effect?, result?]
      cases slot? _ with
      | none => rfl
      | some k => simp only [Option.bind_eq_bind, Option.bind_some]; cases s.slots k <;> rfl
  | save uses =>
      refine Or.inr ⟨rfl, rfl, ?_⟩
      simp only [effect?, saved?]
      cases slot? _ <;> cases operand? _ s 1 <;> rfl
  | terminator o ho uses =>
      have hyes : (⟨.common o, [], uses⟩ : Instr M).isTerminator = true := ho
      rw [hyes] at hterm
      exact absurd hterm (by simp)

/-- Instructions with one opcode, one slot and the same operand values compute the
    same, if whatever one of them finds the other does. -/
theorem result_mono {i j : Instr M} {s t : Store M} (hop : i.op = j.op) (hslot : i.slot? = j.slot?)
    (hoperand : ∀ k x, i.operand? s k = some x → j.operand? t k = some x)
    (hslots : ∀ k x, i.slot? = some k → s.slots k = some x → t.slots k = some x) {x : Int64}
    (h : i.result? s = some x) : j.result? t = some x := by
  -- The three arithmetic instructions differ in what they do with the operands only.
  have htwo : ∀ op : Int64 → Int64 → Int64,
      (do return op (← i.operand? s 0) (← i.operand? s 1)) = some x →
        (do return op (← j.operand? t 0) (← j.operand? t 1)) = some x := by
    intro op hx
    cases h0 : i.operand? s 0 with
    | none => rw [h0] at hx; exact absurd hx (by simp)
    | some y =>
        cases h1 : i.operand? s 1 with
        | none => rw [h0, h1] at hx; exact absurd hx (by simp)
        | some z =>
            rw [h0, h1] at hx
            rw [hoperand 0 y h0, hoperand 1 z h1]
            exact hx
  unfold result? at h ⊢
  rw [← hop]
  split at h
  · exact hoperand 0 x h
  · exact htwo (· + ·) h
  · exact htwo (· - ·) h
  · exact htwo (· * ·) h
  · rw [← hslot]
    cases hk : i.slot? with
    | none => rw [hk] at h; exact absurd h (by simp)
    | some k =>
        rw [hk] at h
        exact hslots k x hk h
  · exact absurd h (by simp)

theorem saved_eq_some {i : Instr M} {s : Store M} {kx : Nat × Int64} :
    i.saved? s = some kx ↔ i.slot? = some kx.1 ∧ i.operand? s 1 = some kx.2 := by
  obtain ⟨k, x⟩ := kx
  unfold saved?
  cases i.slot? with
  | none => simp
  | some j =>
      cases i.operand? s 1 with
      | none => simp
      | some y => simp

theorem saved_mono {i j : Instr M} {s t : Store M} (hslot : i.slot? = j.slot?)
    (hoperand : ∀ k x, i.operand? s k = some x → j.operand? t k = some x) {kx : Nat × Int64}
    (h : i.saved? s = some kx) : j.saved? t = some kx := by
  have hsaved := saved_eq_some.mp h
  exact saved_eq_some.mpr ⟨hslot ▸ hsaved.1, hoperand 1 kx.2 hsaved.2⟩

/-- Which of its targets a jump goes to, given the values of its leading operands. -/
def chosen? (i : Instr M) (leading : List Int64) : Option Nat :=
  match i.op with
  | .common .jmp => some 0
  | .common .jnz => leading.head?.map fun condition => if condition = 0 then 1 else 0
  | _ => none

/-- A terminator returns the value of its first operand, or reads all its operands
    and goes to the chosen target. -/
theorem effect_of_terminator {i : Instr M} (hterm : i.isTerminator = true) (f : Function M)
    (s : Store M) :
    (i.op = .common .ret ∧ i.effect? f s = (i.operand? s 0).map .done) ∨
      (i.op ≠ .common .ret ∧ i.effect? f s = do
        let leading ← i.leading.mapM s.value?
        let targets ← i.targets? s
        let k ← i.chosen? leading
        goTo? f s targets[k]?) := by
  obtain ⟨op, defs, uses⟩ := i
  cases op with
  | native o => exact absurd hterm (by simp [isTerminator, Op.isTerminator])
  | common o =>
      have ho : o = .jmp ∨ o = .jnz ∨ o = .ret := by
        have h : o.isTerminator = true := hterm
        cases o <;> simp [Opcode.isTerminator] at h ⊢
      rcases ho with rfl | rfl | rfl
      · refine Or.inr ⟨by simp, ?_⟩
        simp only [effect?, jump?, chosen?, Option.bind_eq_bind, Option.bind_some,
          List.head?_eq_getElem?]
      · -- With one target only, a false condition asks for a second that is not there.
        refine Or.inr ⟨by simp, ?_⟩
        simp only [effect?, jump?, chosen?, branchOn?]
        refine congrArg (Option.bind _) (funext fun leading => ?_)
        refine congrArg (Option.bind _) (funext fun targets => ?_)
        cases leading with
        | nil => rfl
        | cons condition rest =>
            by_cases hc : condition = 0
            · simp [hc]
            · simp [hc]
      · exact Or.inl ⟨rfl, rfl⟩

/-- A branch with the values of its arguments. -/
def taken? (s : Store M) (branch : Branch M) : Option (Nat × List Int64) :=
  (branch.args.mapM s.value?).map fun args => (branch.target, args)

/-- If the arguments of all its branches have values, a jump fails or goes on
    because of its leading operands alone. -/
theorem effect_of_jump {i : Instr M} (hterm : i.isTerminator = true) (hop : i.op ≠ .common .ret)
    (f : Function M) {s : Store M}
    (hargs : ∀ branch ∈ i.branches, ∀ u ∈ branch.args, (s.value? u).isSome) :
    i.effect? f s = (i.leading.mapM s.value?).bind fun leading =>
      (i.chosen? leading).bind fun k => goTo? f s (i.branches[k]?.bind (taken? s)) := by
  rcases effect_of_terminator hterm f s with ⟨hret, _⟩ | ⟨_, heff⟩
  · exact absurd hret hop
  · -- All targets can be computed, also of branches that are not taken.
    have hsome : (i.targets? s).isSome := by
      refine isSome_mapM fun branch hbranch => ?_
      rw [Option.isSome_map]
      exact isSome_mapM (hargs branch hbranch)
    rcases Option.isSome_iff_exists.mp hsome with ⟨targets, htargets⟩
    rw [heff, htargets]
    simp only [Option.bind_eq_bind, Option.bind_some]
    refine congrArg (Option.bind _) (funext fun leading => ?_)
    refine congrArg (Option.bind _) (funext fun k => ?_)
    rw [getElem?_of_mapM htargets]
    rfl

/-- What a return reads is its first leading operand. -/
theorem operand_zero (i : Instr M) (s : Store M) :
    i.operand? s 0 = i.leading.head?.bind s.value? := by
  have huses : i.uses = i.leading ++
      i.branches.flatMap fun branch => .block branch.target :: branch.args := i.uses_eq
  unfold operand?
  rw [huses]
  cases i.leading with
  | cons u leading => rfl
  | nil =>
      cases i.branches with
      | nil => rfl
      | cons branch rest => rfl

end Instr

namespace Function

/-- Run code in which every instruction is followed by the next one. -/
def pass? (f : Function M) : Store M → List (Instr M) → Option (Store M)
  | s, [] => some s
  | s, i :: rest =>
      match i.effect? f s with
      | some (.next t) => f.pass? t rest
      | _ => none

variable {f : Function M}

/-- Passing an instruction and the rest. -/
theorem pass_cons_eq_some {i : Instr M} {code : List (Instr M)} {s t : Store M} :
    f.pass? s (i :: code) = some t ↔
      ∃ u, i.effect? f s = some (.next u) ∧ f.pass? u code = some t := by
  simp only [pass?]
  cases i.effect? f s with
  | none => simp
  | some e => cases e <;> simp

/-- Straight-line code is passed before what follows it is run. -/
theorem leave_append {code : List (Instr M)} (hreg : ∀ i ∈ code, i.Regular)
    (hterm : ∀ i ∈ code, i.isTerminator = false) (s : Store M) (rest : List (Instr M)) :
    f.leave? s (code ++ rest) = (f.pass? s code).bind fun t => f.leave? t rest := by
  induction code generalizing s with
  | nil => rfl
  | cons i code ih =>
      have ih' := ih (fun j hj => hreg j (by simp [hj])) (fun j hj => hterm j (by simp [hj]))
      rw [List.cons_append]
      simp only [leave?, pass?]
      -- Straight instructions only change the store.
      rcases Instr.effect_of_regular (hreg i (by simp)) (hterm i (by simp)) f s with
        ⟨d, _, _, heff⟩ | ⟨_, _, heff⟩
      · rw [heff]
        cases i.result? s with
        | none => rfl
        | some x => exact ih' _
      · rw [heff]
        cases i.saved? s with
        | none => rfl
        | some kx => exact ih' _

/-- Passing code in two parts. -/
theorem pass_append (f : Function M) (s : Store M) (code rest : List (Instr M)) :
    f.pass? s (code ++ rest) = (f.pass? s code).bind fun t => f.pass? t rest := by
  induction code generalizing s with
  | nil => rfl
  | cons i code ih =>
      rw [List.cons_append]
      simp only [pass?]
      cases i.effect? f s with
      | none => rfl
      | some effect =>
          cases effect with
          | next t => exact ih t
          | enter t b => rfl
          | done x => rfl

/-- What one straight-line instruction does to the registers. -/
theorem effect_next_regs {i : Instr M} (hreg : i.Regular) (hterm : i.isTerminator = false)
    {s t : Store M} (h : i.effect? f s = some (.next t)) :
    (∀ r ∈ i.defs, (t.regs r).isSome) ∧ ∀ r, r ∉ i.defs → t.regs r = s.regs r := by
  rcases Instr.effect_of_regular hreg hterm f s with ⟨d, _, hdefs, heff⟩ | ⟨_, hdefs, heff⟩
  · rw [heff, Option.map_eq_some_iff] at h
    rcases h with ⟨x, _, hx⟩
    rw [Effect.next.injEq] at hx
    rw [← hx, hdefs]
    refine ⟨fun r hr => ?_, fun r hr => ?_⟩
    · rw [List.mem_singleton] at hr
      simp [hr]
    · rw [List.mem_singleton] at hr
      rw [Store.regs_setReg, if_neg hr]
  · rw [heff, Option.map_eq_some_iff] at h
    rcases h with ⟨kx, _, hx⟩
    rw [Effect.next.injEq] at hx
    rw [← hx, hdefs]
    exact ⟨by simp, fun r _ => rfl⟩

/-- What passing straight-line code does to the registers. -/
theorem pass_regs {code : List (Instr M)} (hreg : ∀ i ∈ code, i.Regular)
    (hterm : ∀ i ∈ code, i.isTerminator = false) {s t : Store M} (h : f.pass? s code = some t) :
    (∀ r, (s.regs r).isSome → (t.regs r).isSome) ∧
      (∀ i ∈ code, ∀ r ∈ i.defs, (t.regs r).isSome) ∧
        ∀ r, (∀ i ∈ code, r ∉ i.defs) → t.regs r = s.regs r := by
  induction code generalizing s with
  | nil =>
      rw [pass?, Option.some.injEq] at h
      rw [← h]
      exact ⟨fun r hr => hr, by simp, fun r _ => rfl⟩
  | cons i code ih =>
      rcases pass_cons_eq_some.mp h with ⟨u, heff, hpass⟩
      have hone := effect_next_regs (hreg i (by simp)) (hterm i (by simp)) heff
      rcases ih (fun j hj => hreg j (by simp [hj])) (fun j hj => hterm j (by simp [hj])) hpass
        with ⟨hkeep, hwrite, hsame⟩
      refine ⟨fun r hr => hkeep r ?_, fun j hj r hr => ?_, fun r hr => ?_⟩
      · -- Written here or left alone, the register holds a value after `i`.
        by_cases hd : r ∈ i.defs
        · exact hone.1 r hd
        · rw [hone.2 r hd]
          exact hr
      · rcases List.mem_cons.mp hj with rfl | hj
        · exact hkeep r (hone.1 r hr)
        · exact hwrite j hj r hr
      · rw [hsame r fun j hj => hr j (by simp [hj]), hone.2 r (hr i (by simp))]

/-- A terminator returns, goes on with the store as it is, or enters the block of one of its
    branches with the values of the arguments. -/
theorem terminator_cases {i : Instr M} (hterm : i.isTerminator = true) {s : Store M}
    {effect : Effect M} (h : i.effect? f s = some effect) :
    (∃ x, effect = .done x) ∨ effect = .next s ∨
      ∃ branch ∈ i.branches, ∃ target args, f.blocks[branch.target]? = some target ∧
        branch.args.mapM s.value? = some args ∧
          effect = .enter (s.setInputs target.inputs args) branch.target := by
  rcases Instr.effect_of_terminator hterm f s with ⟨_, heff⟩ | ⟨_, heff⟩
  · rw [heff, Option.map_eq_some_iff] at h
    rcases h with ⟨x, _, rfl⟩
    exact Or.inl ⟨x, rfl⟩
  · rw [heff] at h
    simp only [Option.bind_eq_bind, Option.bind_eq_some_iff] at h
    rcases h with ⟨leading, _, targets, htargets, k, _, hgo⟩
    cases hk : targets[k]? with
    -- Only a branch that is not taken goes on.
    | none =>
        rw [hk, Instr.goTo?, Option.some.injEq] at hgo
        exact Or.inr (Or.inl hgo.symm)
    | some taken =>
        obtain ⟨d, args⟩ := taken
        rw [hk, Instr.goTo?, Option.map_eq_some_iff] at hgo
        rcases hgo with ⟨target, htarget, rfl⟩
        -- The chosen target belongs to a branch with these arguments.
        rw [getElem?_of_mapM htargets, Option.bind_eq_some_iff] at hk
        rcases hk with ⟨branch, hbranch, hargs⟩
        rw [Option.map_eq_some_iff] at hargs
        rcases hargs with ⟨values, hvalues, heq⟩
        rw [Prod.mk.injEq] at heq
        rcases heq with ⟨rfl, rfl⟩
        exact Or.inr (Or.inr
          ⟨branch, List.mem_of_getElem? hbranch, target, values, htarget, hvalues, rfl⟩)

/-- A run of terminators that enters a block does so at one of its branches, with
    the store it started from. -/
theorem enter_of_run {run : List (Instr M)} (hterm : ∀ i ∈ run, i.isTerminator = true)
    {s t : Store M} {c : Nat} (h : f.leave? s run = some (.enter t c)) :
    ∃ i ∈ run, ∃ branch ∈ i.branches, ∃ target args, branch.target = c ∧
      f.blocks[c]? = some target ∧ branch.args.mapM s.value? = some args ∧
        t = s.setInputs target.inputs args := by
  induction run with
  | nil => exact absurd h (by simp [leave?])
  | cons i run ih =>
      simp only [leave?] at h
      cases heff : i.effect? f s with
      | none => rw [heff] at h; exact absurd h (by simp)
      | some effect =>
          rw [heff] at h
          rcases terminator_cases (hterm i (by simp)) heff with
            ⟨x, rfl⟩ | rfl | ⟨branch, hbranch, target, args, htarget, hargs, rfl⟩
          · exact absurd h (by simp)
          · -- A branch that was not taken leaves the store as it was.
            rcases ih (fun j hj => hterm j (by simp [hj])) h with ⟨j, hj, hrest⟩
            exact ⟨j, by simp [hj], hrest⟩
          · simp only [Option.some.injEq, Exit.enter.injEq] at h
            rcases h with ⟨rfl, rfl⟩
            exact ⟨i, by simp, branch, hbranch, target, args, rfl, htarget, hargs, rfl⟩

end Function

end RegisterColoring
