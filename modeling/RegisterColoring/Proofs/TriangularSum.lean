import Mathlib.Tactic.Linarith
import Mathlib.Tactic.Ring
import RegisterColoring.Machine.Flat
import RegisterColoring.Proofs.Passage
import RegisterColoring.Sample

/-!
# The Sum of the First Numbers

The sample `sum` adds up the numbers from `n` down to 1 in a loop, and `sumValue?` gives the
result in closed form. The loop computes with 64-bit words that wrap around. The closed form
fails where a number on the way to the result is no word.

A turn of the loop takes the sum `acc` and the count `i` that its block inputs hold to
`acc + i` and `i - 1`. So from `acc` and `m` it returns `acc` and all numbers up to `m`, by
induction on `m`, and as words are numbers modulo `2 ^ 64`, nothing has to fit for that. If
the sum of all numbers fits into a word, it is what the loop returns.

The closed form multiplies before it halves. The product is twice the sum, so it may overflow
where the sum still fits. This happens from `n = 3037000500` on.

## Main definitions

* `Sample.drawn`: The registers of the sample.
* `Sample.Carries`: The inputs of the loop hold a sum and a count.

## Theorems

* `Sample.runFor_turn`, `Sample.runFor_last`: A turn of the loop.
* `Sample.runFor_loop`: All turns.
* `Sample.singleAssignment_sum`: The sample is in single assignment form.
* `Sample.word_eq_some_iff`, `Sample.word_eq_none_iff`: Which numbers are words.
* `Sample.sumValue_eq_some_iff`, `Sample.sumValue_eq_none_iff`: Where there is a closed form.
* `Sample.sum_returns_triangle`: The loop against the closed form.
* `Sample.sumValue_overflows`: The first argument for which they differ.
-/

namespace RegisterColoring

variable {M : Machine}

/-- As many registers in a row as there are ids have different ones. -/
theorem Supply.regId_inj {supply : Supply} {j k : Nat} (hj : j < capacity) (hk : k < capacity)
    (h : supply.regId j = supply.regId k) : j = k := by
  unfold regId capacity at *
  simp only [Nat.pow_eq] at *
  omega

@[simp]
theorem Operand.block?_ofVReg (v : VReg M) : (ofVReg v).block? = none :=
  rfl

@[simp]
theorem Operand.reg?_ofVReg (v : VReg M) : (ofVReg v).reg? = some (.virtual v) :=
  rfl

@[simp]
theorem Operand.reg?_imm (x : Int64) : (imm x : Operand M).reg? = none :=
  rfl

@[simp]
theorem Operand.reg?_block (b : Nat) : (block b : Operand M).reg? = none :=
  rfl

@[simp]
theorem Store.value?_ofVReg (s : Store M) (v : VReg M) :
    s.value? (.ofVReg v) = s.regs (.virtual v) :=
  rfl

namespace Sample

section Instructions

variable {op : Opcode} {v : VReg M} {uses : List (Operand M)}

@[simp]
theorem isTerminator_assign : (assign op v uses).isTerminator = op.isTerminator :=
  rfl

@[simp]
theorem isTerminator_perform : (perform op uses).isTerminator = op.isTerminator :=
  rfl

@[simp]
theorem defIds_assign : (assign op v uses).defIds = [v.id] :=
  rfl

@[simp]
theorem reads_assign : (assign op v uses).reads = uses.filterMap Operand.reg? :=
  rfl

@[simp]
theorem reads_perform : (perform op uses).reads = uses.filterMap Operand.reg? :=
  rfl

@[simp]
theorem branches_assign : (assign op v uses).branches = (splitBranches uses).2 :=
  rfl

@[simp]
theorem branches_perform : (perform op uses).branches = (splitBranches uses).2 :=
  rfl

end Instructions

section Steps

variable {f : Function M} {s : Store M} {k : Nat} {rest : List (Instr M)}

theorem runFor_copy {v : VReg M} {a : Operand M} {x : Int64} (ha : s.value? a = some x) :
    f.runFor (k + 1) s (assign .copy v [a] :: rest) =
      f.runFor k (s.setReg (.virtual v) x) rest := by
  simp [Function.runFor, Instr.effect?, Instr.operand?, Instr.write?, assign, ha]

/-- An instruction that computes with two values. -/
theorem runFor_compute {op : Opcode} {g : Int64 → Int64 → Int64} {v : VReg M} {a b : Operand M}
    {x y : Int64} (hop : (assign op v [a, b]).effect? f s = (assign op v [a, b]).compute? s g)
    (ha : s.value? a = some x) (hb : s.value? b = some y) :
    f.runFor (k + 1) s (assign op v [a, b] :: rest) =
      f.runFor k (s.setReg (.virtual v) (g x y)) rest := by
  have heffect : (assign op v [a, b]).effect? f s =
      some (.next (s.setReg (.virtual v) (g x y))) := by
    rw [hop]
    simp [Instr.compute?, Instr.operand?, Instr.write?, assign, ha, hb]
  simp [Function.runFor, heffect]

theorem runFor_ret {a : Operand M} {x : Int64} (ha : s.value? a = some x) :
    f.runFor (k + 1) s (perform .ret [a] :: rest) = some x := by
  simp [Function.runFor, Instr.effect?, Instr.operand?, perform, ha]

variable {b : Nat} {args : List (Operand M)} {xs : List Int64}
  (hargs : ∀ u ∈ args, u.block? = none) (hxs : args.mapM s.value? = some xs)

/-- A jump that names one block. -/
theorem splitBranches_target (leading : List (Operand M))
    (hleading : ∀ u ∈ leading, u.block? = none) (hargs : ∀ u ∈ args, u.block? = none) :
    splitBranches (leading ++ .block b :: args) = (leading, [⟨b, args⟩]) := by
  have hjoin : joinBranches leading [⟨b, args⟩] = leading ++ .block b :: args := by
    simp [joinBranches]
  rw [← hjoin]
  exact splitBranches_joinBranches hleading (by simpa using hargs)

include hargs hxs

theorem runFor_jmp {block : Block M} (hb : f.blocks[b]? = some block) :
    f.runFor (k + 1) s (perform .jmp (.block b :: args) :: rest) =
      f.runFor k (s.setInputs block.inputs xs) (f.codeOf b) := by
  have hsplit : splitBranches (.block b :: args) = ([], [⟨b, args⟩]) :=
    splitBranches_target [] (by simp) hargs
  have heffect : (perform .jmp (.block b :: args)).effect? f s =
      some (.enter (s.setInputs block.inputs xs) b) := by
    simp [Instr.effect?, Instr.jump?, Instr.leading, Instr.targets?, Instr.branches, Instr.goTo?,
      perform, hsplit, hxs, hb]
  simp [Function.runFor, heffect]

/-- A conditional jump is taken, or the next instruction follows. -/
theorem runFor_jnz {a : Operand M} {x : Int64} {block : Block M} (ha : a.block? = none)
    (hx : s.value? a = some x) (hb : f.blocks[b]? = some block) :
    f.runFor (k + 1) s (perform .jnz (a :: .block b :: args) :: rest) =
      if x = 0 then f.runFor k s rest
      else f.runFor k (s.setInputs block.inputs xs) (f.codeOf b) := by
  have hsplit : splitBranches (a :: .block b :: args) = ([a], [⟨b, args⟩]) :=
    splitBranches_target [a] (by simpa using ha) hargs
  have heffect : (perform .jnz (a :: .block b :: args)).effect? f s =
      if x = 0 then some (.next s) else some (.enter (s.setInputs block.inputs xs) b) := by
    by_cases hzero : x = 0
    · simp [Instr.effect?, Instr.jump?, Instr.leading, Instr.targets?, Instr.branches,
        Instr.goTo?, Instr.branchOn?, perform, hsplit, hxs, hx, hzero]
    · simp [Instr.effect?, Instr.jump?, Instr.leading, Instr.targets?, Instr.branches,
        Instr.goTo?, Instr.branchOn?, perform, hsplit, hxs, hx, hzero, hb]
  by_cases hzero : x = 0
  · simp [Function.runFor, heffect, hzero]
  · simp [Function.runFor, heffect, hzero]

end Steps

variable {c : M.Class} {n : Int64} {supply : Supply}

/-- The register of the sample that was drawn after `k` others. -/
def drawn (c : M.Class) (supply : Supply) (k : Nat) : VReg M :=
  ⟨supply.regId k, c⟩

theorem drawn_eq_iff {j k : Nat} (hj : j < 7) (hk : k < 7) :
    drawn c supply j = drawn c supply k ↔ j = k := by
  have hcapacity : 7 ≤ Supply.capacity := by decide
  constructor
  · intro h
    exact Supply.regId_inj (by omega) (by omega) (congrArg VReg.id h)
  · exact congrArg _

def entryBlock (c : M.Class) (n : Int64) (supply : Supply) : Block M :=
  ⟨[], [assign .copy (drawn c supply 0) [.imm n], assign .copy (drawn c supply 1) [.imm 0],
    perform .jmp [.block 1, .ofVReg (drawn c supply 1), .ofVReg (drawn c supply 0)]]⟩

def loopBlock (c : M.Class) (supply : Supply) : Block M :=
  ⟨[drawn c supply 2, drawn c supply 3],
    [assign .add (drawn c supply 4) [.ofVReg (drawn c supply 2), .ofVReg (drawn c supply 3)],
    assign .sub (drawn c supply 5) [.ofVReg (drawn c supply 3), .imm 1],
    perform .jnz [.ofVReg (drawn c supply 5), .block 1, .ofVReg (drawn c supply 4),
      .ofVReg (drawn c supply 5)],
    perform .jmp [.block 2, .ofVReg (drawn c supply 4)]]⟩

def exitBlock (c : M.Class) (supply : Supply) : Block M :=
  ⟨[drawn c supply 6], [perform .ret [.ofVReg (drawn c supply 6)]]⟩

theorem blocks_sum : (sum c n supply).1.blocks =
    [entryBlock c n supply, loopBlock c supply, exitBlock c supply] :=
  rfl

/-- The inputs of the loop hold a sum and a count. -/
structure Carries (c : M.Class) (supply : Supply) (s : Store M) (acc i : Int64) : Prop where
  acc : s.regs (.virtual (drawn c supply 2)) = some acc
  count : s.regs (.virtual (drawn c supply 3)) = some i

theorem Carries.setInputs (s : Store M) (acc i : Int64) :
    Carries c supply (s.setInputs (loopBlock c supply).inputs [acc, i]) acc i := by
  constructor
  · simp [loopBlock, drawn_eq_iff]
  · simp [loopBlock]

/-- Before the jump at its end, a turn has added the count and taken one off it. -/
theorem runFor_turn {s : Store M} {acc i : Int64} (h : Carries c supply s acc i) :
    ∃ t : Store M, t.regs (.virtual (drawn c supply 4)) = some (acc + i) ∧ ∀ k,
      (sum c n supply).1.runFor (k + 3) s (loopBlock c supply).code =
        if i - 1 = 0 then
          (sum c n supply).1.runFor k t [perform .jmp [.block 2, .ofVReg (drawn c supply 4)]]
        else
          (sum c n supply).1.runFor k (t.setInputs (loopBlock c supply).inputs [acc + i, i - 1])
            (loopBlock c supply).code := by
  have hacc : s.value? (.ofVReg (drawn c supply 2)) = some acc := h.acc
  have hcount : s.value? (.ofVReg (drawn c supply 3)) = some i := h.count
  -- Adding writes a register of its own, so the count is still there.
  have hkept : (s.setReg (.virtual (drawn c supply 4)) (acc + i)).value?
      (.ofVReg (drawn c supply 3)) = some i := by
    simpa [drawn_eq_iff] using hcount
  refine ⟨(s.setReg (.virtual (drawn c supply 4)) (acc + i)).setReg
    (.virtual (drawn c supply 5)) (i - 1), by simp [drawn_eq_iff], fun k => ?_⟩
  refine (runFor_compute rfl hacc hcount).trans ((runFor_compute rfl hkept rfl).trans ?_)
  refine runFor_jnz ?_ ?_ rfl ?_ rfl
  · simp
  · simp [drawn_eq_iff]
  · simp

/-- The last turn leaves the loop, and the exit block returns the sum. -/
theorem runFor_last {s : Store M} {acc : Int64} (h : Carries c supply s acc 1) :
    (sum c n supply).1.runFor 5 s (loopBlock c supply).code = some (acc + 1) := by
  rcases runFor_turn (n := n) h with ⟨t, hsum, hturn⟩
  have hargs : [Operand.ofVReg (drawn c supply 4)].mapM t.value? = some [acc + 1] := by
    simp [hsum]
  rw [hturn 2, if_pos (by decide)]
  refine (runFor_jmp ?_ hargs rfl).trans (runFor_ret ?_)
  · simp
  · simp

/-- The turns from a sum and a count add up all numbers to the count. -/
theorem runFor_loop (m : Nat) (hm : m + 1 < 2 ^ 63) {a : Nat} {s : Store M}
    (h : Carries c supply s (.ofNat a) (.ofNat (m + 1))) :
    ∃ steps, (sum c n supply).1.runFor steps s (loopBlock c supply).code =
      some (.ofNat (a + (m + 1) * (m + 2) / 2)) := by
  -- On the turns that are left, for every sum so far.
  induction m generalizing a s with
  | zero =>
      refine ⟨5, (runFor_last h).trans ?_⟩
      exact congrArg some (Int64.ofNat_add a 1).symm
  | succ m ih =>
      have hless : Int64.ofNat (m + 2) - 1 = Int64.ofNat (m + 1) := by
        rw [Int64.ofNat_add (m + 1) 1]
        exact Int64.add_sub_cancel _ _
      have hmore : Int64.ofNat a + Int64.ofNat (m + 2) = Int64.ofNat (a + (m + 2)) :=
        (Int64.ofNat_add _ _).symm
      have hne : Int64.ofNat (m + 1) ≠ 0 := by
        intro hzero
        have hint := congrArg Int64.toInt hzero
        rw [Int64.toInt_ofNat_of_lt (by omega), Int64.toInt_zero] at hint
        omega
      -- One turn, and then the turns from what it leaves.
      rcases runFor_turn (n := n) h with ⟨t, _, hturn⟩
      rcases ih (by omega) (Carries.setInputs t (.ofNat (a + (m + 2))) (.ofNat (m + 1))) with
        ⟨steps, hsteps⟩
      refine ⟨steps + 3, ?_⟩
      rw [hturn steps, hless, if_neg hne, hmore, hsteps]
      have hgauss : (m + 1 + 1) * (m + 1 + 2) = (m + 1) * (m + 2) + 2 * (m + 2) := by ring
      refine congrArg (fun total => some (Int64.ofNat total)) ?_
      omega

/-- The sample returns the sum of the first numbers, as a word. -/
theorem returns_sum (m : Nat) (hm : m + 1 < 2 ^ 63) :
    (sum c (.ofNat (m + 1)) supply).1.Returns (.ofNat ((m + 1) * (m + 2) / 2)) := by
  -- The store at the jump into the loop.
  let s : Store M := (Store.empty.setReg (.virtual (drawn c supply 0)) (.ofNat (m + 1))).setReg
    (.virtual (drawn c supply 1)) 0
  have hargs : [Operand.ofVReg (drawn c supply 1), Operand.ofVReg (drawn c supply 0)].mapM
      s.value? = some [0, .ofNat (m + 1)] := by
    simp [s, drawn_eq_iff]
  rcases runFor_loop m hm (Carries.setInputs s (.ofNat 0) (.ofNat (m + 1))) with ⟨steps, hsteps⟩
  rw [Nat.zero_add] at hsteps
  refine ⟨steps + 3, (runFor_copy rfl).trans ((runFor_copy rfl).trans ?_)⟩
  refine (runFor_jmp ?_ hargs rfl).trans hsteps
  simp

/-- No block of the sample reads what it has not taken in or written itself. -/
theorem needs_sum : ∀ b ∈ (sum c n supply).1.blocks, b.needs = [] := by
  rw [blocks_sum]
  simp only [List.forall_mem_cons]
  refine ⟨?_, ?_, ?_, by simp⟩
  · simp [Block.needs, Block.idsBefore, Instr.readIds, entryBlock, Register.virtual?,
      or_imp, forall_and]
  · simp [Block.needs, Block.idsBefore, Instr.readIds, loopBlock, Register.virtual?,
      or_imp, forall_and]
  · simp [Block.needs, Block.idsBefore, Instr.readIds, exitBlock, Register.virtual?]

theorem terminated_sum : ∀ b ∈ (sum c n supply).1.blocks, b.Terminated := by
  rw [blocks_sum]
  simp only [List.forall_mem_cons]
  refine ⟨?_, ?_, ?_, by simp⟩
  · refine .of_append (show (entryBlock c n supply).code = [_, _] ++ [_] from rfl) ?_ ?_ (by simp)
    · simp [Opcode.isTerminator]
    · simp [Opcode.isTerminator]
  · refine .of_append (show (loopBlock c supply).code = [_, _] ++ [_, _] from rfl) ?_ ?_ (by simp)
    · simp [Opcode.isTerminator]
    · simp [Opcode.isTerminator]
  · refine .of_append (show (exitBlock c supply).code = [] ++ [_] from rfl) (by simp) ?_ (by simp)
    simp [Opcode.isTerminator]

theorem fits_sum : ∀ b ∈ (sum c n supply).1.blocks, ∀ i ∈ b.code, ∀ branch ∈ i.branches,
    branch.Fits (sum c n supply).1 := by
  rw [blocks_sum]
  simp only [List.forall_mem_cons]
  refine ⟨?_, ?_, ?_, by simp⟩
  · simp [entryBlock, splitBranches, consOperand, Operand.ofVReg, Branch.Fits, blocks_sum,
      loopBlock]
  · simp [loopBlock, splitBranches, consOperand, Operand.ofVReg, Branch.Fits, blocks_sum,
      exitBlock]
  · simp [exitBlock, splitBranches, consOperand, Operand.ofVReg]

theorem singleAssignment_sum : (sum c n supply).1.SingleAssignment where
  terminated := terminated_sum
  fits b hb i hi _ := fits_sum b hb i hi
  once := by
    have hids : (sum c n supply).1.blocks.flatMap Block.ids = (List.range 7).map supply.regId := rfl
    have hcapacity : 7 ≤ Supply.capacity := by decide
    rw [hids]
    refine List.Nodup.map_on (fun j hj k hk hjk => ?_) List.nodup_range
    rw [List.mem_range] at hj hk
    exact Supply.regId_inj (by omega) (by omega) hjk
  reached := by
    have hloop : Walk (sum c n supply).1.next [0] 1 := .step .start (List.mem_singleton_self 1)
    have hexit : Walk (sum c n supply).1.next [1, 0] 2 :=
      .step hloop (show 2 ∈ [1, 2] by simp)
    intro b hb
    have hsize : (sum c n supply).1.size = 3 := rfl
    rcases b with _ | _ | _ | b
    · exact ⟨[], .start⟩
    · exact ⟨[0], Function.route_iff.mpr hloop⟩
    · exact ⟨[1, 0], Function.route_iff.mpr hexit⟩
    · omega
  defined _ _ block k i r _ hb hk hr := by
    by_contra hnot
    have hneed := Block.mem_needs.mpr ⟨k, i, hk, hr, fun hmem => hnot (Or.inl hmem)⟩
    rw [needs_sum block (List.mem_of_getElem? hb)] at hneed
    exact absurd hneed (by simp)

theorem check_sum : (sum c n supply).1.check = .ok () := by
  have hsize : 0 < (sum c n supply).1.size := show 0 < 3 by decide
  rw [Function.check_eq_ok_iff_fault]
  exact (Function.fault_eq_none_iff hsize).mpr singleAssignment_sum

theorem word_eq_some_iff {x : Int} {w : Int64} : word? x = some w ↔ w.toInt = x := by
  have hmin : Int64.minValue.toInt = -2 ^ 63 := rfl
  have hmax : Int64.maxValue.toInt = 2 ^ 63 - 1 := rfl
  have hlow := w.le_toInt
  have hhigh := w.toInt_lt
  unfold word?
  by_cases hfits : Int64.minValue.toInt ≤ x ∧ x ≤ Int64.maxValue.toInt
  · have hx : (Int64.ofInt x).toInt = x := Int64.toInt_ofInt_of_le (by omega) (by omega)
    rw [if_pos hfits, Option.some.injEq, ← Int64.toInt_inj, hx, eq_comm]
  · rw [if_neg hfits]
    refine iff_of_false (by simp) fun hx => ?_
    omega

theorem word_eq_none_iff {x : Int} :
    word? x = none ↔ x < Int64.minValue.toInt ∨ Int64.maxValue.toInt < x := by
  unfold word?
  split
  · rename_i hfits
    exact iff_of_false (by simp) (by omega)
  · rename_i hfits
    exact iff_of_true rfl (by omega)

/-- A number times the next one is even. -/
theorem mul_succ_eq (n : Int) : n * (n + 1) = 2 * (n * (n + 1) / 2) :=
  (Int.mul_ediv_cancel' (Int.even_mul_succ_self n).two_dvd).symm

/-- The closed form halves the product, if that is a word. -/
theorem sumValue_eq (hsucc : n.toInt + 1 ≤ Int64.maxValue.toInt) :
    sumValue? n = (word? (n.toInt * (n.toInt + 1))).map (· / 2) := by
  have hmax : Int64.maxValue.toInt = 2 ^ 63 - 1 := rfl
  have hlow := n.le_toInt
  have hnext : (n + 1).toInt = n.toInt + 1 := by
    rw [Int64.toInt_add, Int64.toInt_one, Int.bmod]
    omega
  have hadd : add? n 1 = some (n + 1) := word_eq_some_iff.mpr hnext
  unfold sumValue?
  rw [hadd, Option.bind_eq_bind, Option.bind_some, mul?, hnext]
  exact (Option.map_eq_bind ..).symm

/-- The closed form fails from the first argument on whose product is too large. -/
theorem sumValue_eq_none_iff (hpos : 1 ≤ n.toInt) :
    sumValue? n = none ↔ 3037000499 < n.toInt := by
  have hmin : Int64.minValue.toInt = -2 ^ 63 := rfl
  have hmax : Int64.maxValue.toInt = 2 ^ 63 - 1 := rfl
  by_cases hsucc : n.toInt + 1 ≤ Int64.maxValue.toInt
  · rw [sumValue_eq hsucc, Option.map_eq_none_iff, word_eq_none_iff]
    constructor
    · intro hover
      by_contra hle
      have hproduct : n.toInt * (n.toInt + 1) ≤ 3037000499 * 3037000500 := by nlinarith
      have hnonneg : 0 ≤ n.toInt * (n.toInt + 1) := by nlinarith
      omega
    · intro hgt
      have hproduct : 3037000500 * 3037000501 ≤ n.toInt * (n.toInt + 1) := by nlinarith
      exact Or.inr (by omega)
  · -- Not even the factor `n + 1` is a word.
    have hadd : add? n 1 = none := word_eq_none_iff.mpr (Or.inr (by
      rw [Int64.toInt_one]
      omega))
    unfold sumValue?
    rw [hadd]
    exact iff_of_true rfl (by omega)

/-- Before that it is the sum of the first numbers. -/
theorem sumValue_eq_some_iff (hpos : 1 ≤ n.toInt) {x : Int64}
    (hx : x.toInt = n.toInt * (n.toInt + 1) / 2) : sumValue? n = some x ↔ n.toInt ≤ 3037000499 := by
  constructor
  · intro hsome
    by_contra hgt
    rw [(sumValue_eq_none_iff hpos).mpr (by omega)] at hsome
    exact absurd hsome (by simp)
  · intro hle
    have hmax : Int64.maxValue.toInt = 2 ^ 63 - 1 := rfl
    rcases Option.ne_none_iff_exists'.mp (fun hnone =>
      absurd ((sumValue_eq_none_iff hpos).mp hnone) (by omega)) with ⟨y, hy⟩
    rw [hy, Option.some.injEq]
    rw [sumValue_eq (by omega), Option.map_eq_some_iff] at hy
    rcases hy with ⟨product, hproduct, rfl⟩
    refine Int64.toInt_inj.mp ?_
    rw [Int64.toInt_div_of_ne_right _ _ (by decide), word_eq_some_iff.mp hproduct, hx,
      mul_succ_eq n.toInt]
    exact (Int.mul_tdiv_cancel_left _ (by decide)).trans
      (Int.mul_ediv_cancel_left _ (by decide)).symm

/-- Where the sum of the first `n` numbers fits into a word, the sample is well formed and
    returns it. The closed form gives the same up to `n = 3037000499`, and fails for larger
    arguments. -/
theorem sum_returns_triangle (c : M.Class) (supply : Supply) {n : Int64} (hpos : 1 ≤ n.toInt)
    (hfits : n.toInt * (n.toInt + 1) / 2 ≤ Int64.maxValue.toInt) :
    (sum c n supply).1.check = .ok () ∧
      ∃ x, (sum c n supply).1.Returns x ∧ x.toInt = n.toInt * (n.toInt + 1) / 2 ∧
        (sumValue? n = some x ↔ n.toInt ≤ 3037000499) ∧
        (sumValue? n = none ↔ 3037000499 < n.toInt) := by
  have hmax : Int64.maxValue.toInt = 2 ^ 63 - 1 := rfl
  -- The argument as a number, at least 1.
  rcases Int.eq_ofNat_of_zero_le (show 0 ≤ n.toInt - 1 by omega) with ⟨m, hm⟩
  have hlt := n.toInt_lt
  have hn : n = .ofNat (m + 1) := by
    refine Int64.toInt_inj.mp ?_
    rw [Int64.toInt_ofNat_of_lt (by omega)]
    omega
  have htotal : n.toInt * (n.toInt + 1) / 2 = ((m + 1) * (m + 2) / 2 : Nat) := by
    rw [show n.toInt = m + 1 by omega]
    push_cast
    ring_nf
  have hx : (Int64.ofNat ((m + 1) * (m + 2) / 2)).toInt = n.toInt * (n.toInt + 1) / 2 := by
    rw [Int64.toInt_ofNat_of_lt (by omega), htotal]
  refine ⟨check_sum, .ofNat ((m + 1) * (m + 2) / 2), ?_, hx, sumValue_eq_some_iff hpos hx,
    sumValue_eq_none_iff hpos⟩
  rw [hn]
  exact returns_sum m (by omega)

theorem sum_returns_triangle_large :
    (sum (M := flat) ⟨16⟩ 3037000499 ⟨0, 0⟩).1.check = .ok () ∧
      ∃ x, (sum (M := flat) ⟨16⟩ 3037000499 ⟨0, 0⟩).1.Returns x ∧
        x.toInt = 4611686016981624750 ∧ sumValue? 3037000499 = some x := by
  rcases sum_returns_triangle (M := flat) ⟨16⟩ ⟨0, 0⟩ (n := 3037000499) (by decide) (by decide) with
    ⟨hcheck, x, hreturns, hx, hvalue, _⟩
  exact ⟨hcheck, x, hreturns, hx, hvalue.mpr (by decide)⟩

/-- The next argument, whose sum fits as well and is what the sample returns. The closed form
    fails. -/
theorem sumValue_overflows : (1 ≤ (3037000500 : Int64).toInt ∧
    (3037000500 : Int64).toInt * ((3037000500 : Int64).toInt + 1) / 2 ≤ Int64.maxValue.toInt) ∧
      (sum (M := flat) ⟨16⟩ 3037000500 ⟨0, 0⟩).1.Returns 4611686020018625250 ∧
        sumValue? 3037000500 = none :=
  ⟨by decide, returns_sum 3037000499 (by decide), by decide⟩

end Sample

end RegisterColoring
