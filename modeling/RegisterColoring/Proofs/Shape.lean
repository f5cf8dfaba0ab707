import RegisterColoring.Proofs.SingleAssignment

/-!
# The Shape of Code

Two ways of cutting code up, and how to read them back. The operands of an
instruction are leading operands followed by branches, and a block is a body
followed by a run of terminators. Passes that rewrite code give it already cut,
so what they need is the converse of cutting: code put together from such parts
is cut into the same parts.

In a block that is closed by terminators the body holds none of them, which is
what separates straight-line code from jumps.

## Theorems

* `splitBranches_joinBranches`: Operands put together are cut the same way.
* `Instr.references_eq`: The references of an instruction are its targets.
* `Instr.mem_reads_iff`: What an instruction reads, part by part.
* `splitTrailing_append_of`: A block put together is cut the same way.
* `Block.Terminated.of_append`: When a block put together is terminated.
-/

namespace RegisterColoring

variable {M : Machine}

theorem splitBranches_cons (u : Operand M) (rest : List (Operand M)) :
    splitBranches (u :: rest) = consOperand u (splitBranches rest) :=
  rfl

/-- Neither the leading operands nor the arguments hold a block reference. -/
theorem block_eq_none_of_splitBranches (us : List (Operand M)) :
    (∀ u ∈ (splitBranches us).1, u.block? = none) ∧
      ∀ branch ∈ (splitBranches us).2, ∀ u ∈ branch.args, u.block? = none := by
  induction us with
  | nil => simp [splitBranches]
  | cons u rest ih =>
      rw [splitBranches_cons]
      cases u with
      | block target =>
          -- What was leading becomes the arguments of the branch that opens here.
          refine ⟨by simp [consOperand], ?_⟩
          intro branch hbranch
          rcases List.mem_cons.mp hbranch with rfl | hbranch
          · exact ih.1
          · exact ih.2 branch hbranch
      | reg r => simpa [consOperand, Operand.block?] using ih
      | imm x => simpa [consOperand, Operand.block?] using ih
      | frame slot offset => simpa [consOperand, Operand.block?] using ih
      | global name => simpa [consOperand, Operand.block?] using ih

/-- An operand that is no block reference joins the leading operands. -/
theorem consOperand_of_block_eq_none {u : Operand M} (hu : u.block? = none)
    (rest : List (Operand M) × List (Branch M)) : consOperand u rest = (u :: rest.1, rest.2) := by
  cases u with
  | block target => exact absurd hu (by simp [Operand.block?])
  | reg r => rfl
  | imm x => rfl
  | frame slot offset => rfl
  | global name => rfl

theorem splitBranches_append {leading : List (Operand M)}
    (hleading : ∀ u ∈ leading, u.block? = none) (rest : List (Operand M)) :
    splitBranches (leading ++ rest) =
      (leading ++ (splitBranches rest).1, (splitBranches rest).2) := by
  induction leading with
  | nil => rfl
  | cons u leading ih =>
      have hu : u.block? = none := hleading u (by simp)
      have hleading' : ∀ w ∈ leading, w.block? = none := fun w hw => hleading w (by simp [hw])
      rw [List.cons_append, splitBranches_cons, ih hleading', consOperand_of_block_eq_none hu]
      rfl

/-- Operands put together from leading operands and branches are cut into them. -/
theorem splitBranches_joinBranches {leading : List (Operand M)} {branches : List (Branch M)}
    (hleading : ∀ u ∈ leading, u.block? = none)
    (hargs : ∀ branch ∈ branches, ∀ u ∈ branch.args, u.block? = none) :
    splitBranches (joinBranches leading branches) = (leading, branches) := by
  -- Every branch opens with its block reference, which ends the arguments before it.
  have hbranches : splitBranches (joinBranches [] branches) = ([], branches) := by
    induction branches with
    | nil => rfl
    | cons branch rest ih =>
        have hrest := ih fun b hb => hargs b (by simp [hb])
        have hjoin : joinBranches [] (branch :: rest) =
            .block branch.target :: (branch.args ++ joinBranches [] rest) := by
          simp [joinBranches]
        rw [hjoin, splitBranches_cons, splitBranches_append (hargs branch (by simp)), hrest]
        simp [consOperand]
  have hjoin : joinBranches leading branches = leading ++ joinBranches [] branches := by
    simp [joinBranches]
  rw [hjoin, splitBranches_append hleading, hbranches, List.append_nil]

/-- The virtual registers of a list. -/
theorem Register.mem_virtuals {l : List (Register M)} {v : VReg M} :
    v ∈ l.filterMap Register.virtual? ↔ .virtual v ∈ l := by
  rw [List.mem_filterMap]
  constructor
  · rintro ⟨r, hr, hv⟩
    cases r with
    | virtual w =>
        have hw : w = v := by simpa [Register.virtual?] using hv
        exact hw ▸ hr
    | physical p => exact absurd hv (by simp [Register.virtual?])
  · exact fun h => ⟨.virtual v, h, rfl⟩

namespace Instr

theorem uses_eq (i : Instr M) : i.uses = joinBranches i.leading i.branches :=
  (joinBranches_splitBranches i.uses).symm

theorem block_eq_none_of_mem_leading {i : Instr M} {u : Operand M} (h : u ∈ i.leading) :
    u.block? = none :=
  (block_eq_none_of_splitBranches i.uses).1 u h

theorem block_eq_none_of_mem_args {i : Instr M} {branch : Branch M} {u : Operand M}
    (hb : branch ∈ i.branches) (h : u ∈ branch.args) : u.block? = none :=
  (block_eq_none_of_splitBranches i.uses).2 branch hb u h

theorem mem_uses_iff {i : Instr M} {u : Operand M} :
    u ∈ i.uses ↔ u ∈ i.leading ∨
      ∃ branch ∈ i.branches, u = .block branch.target ∨ u ∈ branch.args := by
  rw [i.uses_eq, joinBranches, List.mem_append, List.mem_flatMap]
  simp only [List.mem_cons]

theorem filterMap_block_eq_nil {us : List (Operand M)} (h : ∀ u ∈ us, u.block? = none) :
    us.filterMap Operand.block? = [] :=
  List.filterMap_eq_nil_iff.mpr h

/-- The blocks that an instruction refers to are the targets of its branches. -/
theorem references_eq (i : Instr M) : i.references = i.branches.map Branch.target := by
  -- Arguments name no blocks, so the operands of a branch name its target only.
  have hbranches : ∀ branches : List (Branch M),
      (∀ branch ∈ branches, ∀ u ∈ branch.args, u.block? = none) →
        (branches.flatMap fun branch => Operand.block branch.target :: branch.args).filterMap
          Operand.block? = branches.map Branch.target := by
    intro branches
    induction branches with
    | nil => simp
    | cons branch rest ih =>
        intro hargs
        have hhere : (Operand.block branch.target :: branch.args).filterMap Operand.block? =
            [branch.target] := by
          have htarget : (Operand.block branch.target : Operand M).block? =
              some branch.target := rfl
          rw [List.filterMap_cons_some htarget, filterMap_block_eq_nil (hargs branch (by simp))]
        rw [List.flatMap_cons, List.filterMap_append, hhere,
          ih fun b hb => hargs b (by simp [hb])]
        rfl
  rw [references, i.uses_eq, joinBranches, List.filterMap_append,
    filterMap_block_eq_nil fun u hu => block_eq_none_of_mem_leading hu,
    hbranches i.branches fun branch hb u hu => block_eq_none_of_mem_args hb hu, List.nil_append]

theorem mem_reads {i : Instr M} {r : Register M} : r ∈ i.reads ↔ .reg r ∈ i.uses := by
  unfold reads
  rw [List.mem_filterMap]
  constructor
  · rintro ⟨u, hu, hr⟩
    cases u with
    | reg q =>
        have hq : q = r := by simpa [Operand.reg?] using hr
        rw [← hq]
        exact hu
    | imm x => exact absurd hr (by simp [Operand.reg?])
    | frame slot offset => exact absurd hr (by simp [Operand.reg?])
    | global name => exact absurd hr (by simp [Operand.reg?])
    | block target => exact absurd hr (by simp [Operand.reg?])
  · exact fun h => ⟨.reg r, h, rfl⟩

/-- What an instruction reads stands before its first branch or is an argument. -/
theorem mem_reads_iff {i : Instr M} {r : Register M} :
    r ∈ i.reads ↔ .reg r ∈ i.leading ∨ ∃ branch ∈ i.branches, .reg r ∈ branch.args := by
  rw [mem_reads, mem_uses_iff]
  simp

theorem mem_defIds {i : Instr M} {r : Nat} :
    r ∈ i.defIds ↔ ∃ v : VReg M, .virtual v ∈ i.defs ∧ v.id = r := by
  simp only [defIds, List.mem_map, Register.mem_virtuals]

theorem mem_readIds {i : Instr M} {r : Nat} :
    r ∈ i.readIds ↔ ∃ v : VReg M, .virtual v ∈ i.reads ∧ v.id = r := by
  simp only [readIds, List.mem_map, Register.mem_virtuals]

end Instr

/-- A list is cut before its last run, wherever else `p` may hold. -/
theorem splitTrailing_append_last {α : Type} {p : α → Bool} {body run : List α}
    (hbody : ∀ a, body.getLast? = some a → p a = false) (hrun : ∀ a ∈ run, p a = true) :
    splitTrailing p (body ++ run) = (body, run) := by
  have hrun' : splitTrailing p run = ([], run) := by
    induction run with
    | nil => rfl
    | cons a run ih =>
        rw [splitTrailing_cons, ih fun b hb => hrun b (by simp [hb]), consTrailing]
        simp [hrun a (by simp)]
  induction body with
  | nil => exact hrun'
  | cons a body ih =>
      cases body with
      | nil =>
          rw [List.cons_append, List.nil_append, splitTrailing_cons, hrun', consTrailing]
          simp [hbody a rfl]
      | cons b body =>
          rw [List.cons_append, splitTrailing_cons, ih fun c hc => hbody c (by simpa using hc),
            consTrailing]
          simp

/-- Straight code followed by a run is cut between the two. -/
theorem splitTrailing_append_of {α : Type} {p : α → Bool} {body run : List α}
    (hbody : ∀ a ∈ body, p a = false) (hrun : ∀ a ∈ run, p a = true) :
    splitTrailing p (body ++ run) = (body, run) :=
  splitTrailing_append_last (fun a ha => hbody a (List.mem_of_getLast? ha)) hrun

/-- The part before the run does not end with a `p`. -/
theorem splitTrailing_last {α : Type} {p : α → Bool} {l : List α} {a : α}
    (h : (splitTrailing p l).1.getLast? = some a) : p a = false := by
  induction l with
  | nil => exact absurd h (by simp [splitTrailing])
  | cons b l ih =>
      rw [splitTrailing_cons, consTrailing] at h
      split at h
      · exact absurd h (by simp)
      · rename_i hcut
        cases hbody : (splitTrailing p l).1 with
        | nil =>
            rw [hbody] at h hcut
            obtain rfl : b = a := by simpa using h
            simpa using hcut
        | cons c body =>
            rw [hbody] at h ih
            exact ih (by simpa using h)

/-- If nothing but `p` follows a `p`, the part before the run holds none. -/
theorem splitTrailing_body {α : Type} {p : α → Bool} {l : List α}
    (h : ∀ (j k : Nat) (a b : α), j < k → l[j]? = some a → l[k]? = some b →
      p a = true → p b = true) : ∀ a ∈ (splitTrailing p l).1, p a = false := by
  induction l with
  | nil => simp [splitTrailing]
  | cons a l ih =>
      have htail : ∀ (j k : Nat) (b c : α), j < k → l[j]? = some b → l[k]? = some c →
          p b = true → p c = true :=
        fun j k b c hjk hj hk =>
          h (j + 1) (k + 1) b c (by omega) (by simpa using hj) (by simpa using hk)
      rw [splitTrailing_cons, consTrailing]
      split
      · simp
      · rename_i hsplit
        intro b hb
        rcases List.mem_cons.mp hb with rfl | hb
        · -- With `p b`, everything after `b` is in the run, and `b` would join it.
          by_contra hpb
          have hpb' : p b = true := by simpa using hpb
          have hall : ∀ c ∈ l, p c = true := by
            intro c hc
            rcases List.getElem?_of_mem hc with ⟨k, hk⟩
            exact h 0 (k + 1) b c (by omega) (by simp) (by simpa using hk) hpb'
          have hcut : splitTrailing p l = ([], l) :=
            splitTrailing_append_of (by simp : ∀ a ∈ [], p a = false) hall
          exact hsplit (by simp [hcut, hpb'])
        · exact ih htail b hb

namespace Block

variable {b : Block M}

theorem mem_code_iff {i : Instr M} : i ∈ b.code ↔ i ∈ b.body ∨ i ∈ b.run := by
  rw [← b.body_append_run, List.mem_append]

namespace Terminated

theorem not_terminator (h : b.Terminated) {i : Instr M} (hi : i ∈ b.body) :
    i.isTerminator = false :=
  splitTrailing_body (fun j k first later hjk hj hk => h.2 j k first later hjk hj hk) i hi

theorem run_ne_nil (h : b.Terminated) : b.run ≠ [] := by
  rcases h.1 with ⟨i, hi, hterm⟩
  intro hrun
  rcases mem_code_iff.mp hi with hbody | hmem
  · rw [h.not_terminator hbody] at hterm
    exact absurd hterm (by simp)
  · rw [hrun] at hmem
    exact absurd hmem (by simp)

/-- Straight code and a nonempty run of terminators make a terminated block. -/
theorem of_append {body run : List (Instr M)} (hcode : b.code = body ++ run)
    (hbody : ∀ i ∈ body, i.isTerminator = false) (hrun : ∀ i ∈ run, i.isTerminator = true)
    (hne : run ≠ []) : b.Terminated := by
  constructor
  · rcases List.exists_mem_of_ne_nil run hne with ⟨i, hi⟩
    exact ⟨i, by simp [hcode, hi], hrun i hi⟩
  · intro j k first later hjk hj hk hfirst
    rw [hcode] at hj hk
    -- A terminator stands in the run, and so does everything after it.
    have hj' : body.length ≤ j := by
      by_contra hlt
      rw [List.getElem?_append_left (by omega)] at hj
      have := hbody first (List.mem_of_getElem? hj)
      rw [hfirst] at this
      exact absurd this (by simp)
    rw [List.getElem?_append_right (by omega)] at hk
    exact hrun later (List.mem_of_getElem? hk)

theorem mem_run (h : b.Terminated) {i : Instr M} (hi : i ∈ b.code) (hterm : i.isTerminator = true) :
    i ∈ b.run := by
  rcases mem_code_iff.mp hi with hbody | hrun
  · rw [h.not_terminator hbody] at hterm
    exact absurd hterm (by simp)
  · exact hrun

end Terminated

/-- The two parts of a block that is put together from them. -/
theorem body_run_of_append {body run : List (Instr M)} (hcode : b.code = body ++ run)
    (hbody : ∀ i ∈ body, i.isTerminator = false) (hrun : ∀ i ∈ run, i.isTerminator = true) :
    b.body = body ∧ b.run = run := by
  unfold Block.body Block.run
  rw [hcode, splitTrailing_append_of hbody hrun]
  exact ⟨rfl, rfl⟩

/-- The same, where terminators may stand anywhere in the first part but at its end. -/
theorem body_run_of_last {body run : List (Instr M)} (hcode : b.code = body ++ run)
    (hbody : ∀ i, body.getLast? = some i → i.isTerminator = false)
    (hrun : ∀ i ∈ run, i.isTerminator = true) : b.body = body ∧ b.run = run := by
  unfold Block.body Block.run
  rw [hcode, splitTrailing_append_last hbody hrun]
  exact ⟨rfl, rfl⟩

theorem not_terminator_last {i : Instr M} (h : b.body.getLast? = some i) :
    i.isTerminator = false :=
  splitTrailing_last h

end Block

end RegisterColoring
