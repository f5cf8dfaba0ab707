import RegisterColoring.Proofs.Staging

/-!
# The Function With Copies

What replacing inputs by copies leaves of a function, block by block. Block `b`
keeps its number and its body. In front of the body come the copies out of the
staging registers, behind it those for the jumps that need no block of their own,
and then the terminators with every branch rerouted. The blocks after the old ones
are edges: copies and one jump.

The numbers of edges are handed out while the blocks are gone through, and no
statement about the result should depend on how. `Reroute` therefore takes the
lookup of blocks in the result as a parameter: a rerouted branch names some block
that holds the copies for it.

## Main definitions

* `Branch.copies`, `Branch.edge`: The copies for a branch, and the block that holds them.
* `Branch.isAhead`: The copies for a branch stand before its terminator.
* `Reroute`, `Instr.Rerouted`: What becomes of branches and of their instruction.
* `Block.LowersTo`: What becomes of a block.

## Theorems

* `lowerRun_rerouted`: The terminators of a lowered block.
* `Function.withCopies_of_block`: The blocks of the result that come from blocks.
* `Function.withCopies_of_edge`: The blocks of the result that come from branches.
* `Function.edge_referenced`: Every edge is the target of a branch.
-/

namespace RegisterColoring

variable {M : Machine}

section Pairs

variable {α β : Type} {R : α → β → Prop} {l : List α} {l' : List β}

/-- Lists related in order are related at each position. -/
theorem getElem?_of_forall₂ (h : List.Forall₂ R l l') {k : Nat} {a : α} (hk : l[k]? = some a) :
    ∃ b, l'[k]? = some b ∧ R a b := by
  induction h generalizing k with
  | nil => exact absurd hk (by simp)
  | cons hhead _ ih =>
      cases k with
      | zero =>
          rw [List.getElem?_cons_zero, Option.some.injEq] at hk
          exact ⟨_, rfl, hk ▸ hhead⟩
      | succ k => exact ih hk

theorem exists_right_of_forall₂ (h : List.Forall₂ R l l') {a : α} (ha : a ∈ l) :
    ∃ b ∈ l', R a b := by
  rcases List.getElem?_of_mem ha with ⟨k, hk⟩
  rcases getElem?_of_forall₂ h hk with ⟨b, hb, hab⟩
  exact ⟨b, List.mem_of_getElem? hb, hab⟩

theorem exists_left_of_forall₂ (h : List.Forall₂ R l l') {b : β} (hb : b ∈ l') :
    ∃ a ∈ l, R a b :=
  exists_right_of_forall₂ h.flip hb

theorem map_eq_of_forall₂ (h : List.Forall₂ R l l') {γ : Type} {F : α → γ} {G : β → γ}
    (hFG : ∀ a ∈ l, ∀ b, R a b → G b = F a) : l'.map G = l.map F := by
  induction h with
  | nil => rfl
  | cons hhead _ ih =>
      rw [List.map_cons, List.map_cons, hFG _ List.mem_cons_self _ hhead,
        ih fun a ha => hFG a (List.mem_cons_of_mem _ ha)]

end Pairs

/-- The copies of the arguments of a branch. -/
def Branch.copies (f : Function M) (staging : Staging M) (branch : Branch M) : List (Instr M) :=
  stageCopies staging (f.inputsOf branch.target) branch.args

/-- The block that holds the copies of a branch of its own. -/
def Branch.edge (f : Function M) (staging : Staging M) (branch : Branch M) : Block M :=
  ⟨[], branch.copies f staging ++ [jumpTo branch.target]⟩

/-- The target has inputs and is not contested, so that the arguments are copied
    before the terminators. -/
def Branch.isAhead (f : Function M) (contested : Nat → Bool) (branch : Branch M) : Bool :=
  !(f.inputsOf branch.target).isEmpty && !contested branch.target

/-- The copies that stand before a run of terminators. -/
def copiesAhead (f : Function M) (staging : Staging M) (contested : Nat → Bool)
    (branches : List (Branch M)) : List (Instr M) :=
  (branches.filter (Branch.isAhead f contested)).flatMap (Branch.copies f staging)

/-- What becomes of a branch, in a function whose blocks `look` finds. -/
inductive Reroute (f : Function M) (staging : Staging M) (contested : Nat → Bool)
    (look : Nat → Option (Block M)) (branch : Branch M) : Branch M → Prop where
  /-- A target without inputs stays. -/
  | plain (h : f.inputsOf branch.target = []) : Reroute f staging contested look branch branch
  /-- The arguments are copied before the terminators. -/
  | ahead (h : f.inputsOf branch.target ≠ []) (hc : contested branch.target = false) :
      Reroute f staging contested look branch ⟨branch.target, []⟩
  /-- The arguments are copied in a block of their own. -/
  | detour (h : f.inputsOf branch.target ≠ []) (hc : contested branch.target = true) (k : Nat)
      (hk : look k = some (branch.edge f staging)) :
      Reroute f staging contested look branch ⟨k, []⟩

/-- An instruction in which only the branches have changed. -/
structure Instr.Rerouted (f : Function M) (staging : Staging M) (contested : Nat → Bool)
    (look : Nat → Option (Block M)) (i j : Instr M) : Prop where
  op : j.op = i.op
  defs : j.defs = i.defs
  leading : j.leading = i.leading
  branches : List.Forall₂ (Reroute f staging contested look) i.branches j.branches

/-- What becomes of a block. -/
structure Block.LowersTo (f : Function M) (staging : Staging M)
    (look : Nat → Option (Block M)) (b c : Block M) : Prop where
  inputs : c.inputs = []
  code : ∃ run, List.Forall₂ (Instr.Rerouted f staging b.contests look) b.run run ∧
    c.code = fetchCopies staging b.inputs ++ b.body ++
      copiesAhead f staging b.contests (b.run.flatMap Instr.branches) ++ run

variable {f : Function M} {staging : Staging M} {contested : Nat → Bool}
  {look : Nat → Option (Block M)}

theorem Instr.Rerouted.isTerminator {i j : Instr M}
    (h : i.Rerouted f staging contested look j) : j.isTerminator = i.isTerminator := by
  rw [Instr.isTerminator, Instr.isTerminator, h.op]

theorem Instr.Rerouted.chosen {i j : Instr M} (h : i.Rerouted f staging contested look j)
    (leading : List Int64) : j.chosen? leading = i.chosen? leading := by
  rw [Instr.chosen?, Instr.chosen?, h.op]

/-- What lowering one branch gives, case by case. -/
theorem lowerBranch_cases (f : Function M) (staging : Staging M) (contested : Nat → Bool)
    (next : Nat) (branch : Branch M) :
    (f.inputsOf branch.target = [] ∧
        lowerBranch f staging contested next branch =
          ⟨.block branch.target :: branch.args, [], []⟩) ∨
      (f.inputsOf branch.target ≠ [] ∧ contested branch.target = true ∧
        lowerBranch f staging contested next branch =
          ⟨[.block next], [], [branch.edge f staging]⟩) ∨
      (f.inputsOf branch.target ≠ [] ∧ contested branch.target = false ∧
        lowerBranch f staging contested next branch =
          ⟨[.block branch.target], branch.copies f staging, []⟩) := by
  unfold lowerBranch
  by_cases hinputs : f.inputsOf branch.target = []
  · exact Or.inl ⟨hinputs, by simp [hinputs]⟩
  · cases hc : contested branch.target with
    | true => exact Or.inr (Or.inl ⟨hinputs, rfl, by simp [hinputs]; rfl⟩)
    | false => exact Or.inr (Or.inr ⟨hinputs, rfl, by simp [hinputs]; rfl⟩)

theorem lowerBranches_copies (next : Nat) (branches : List (Branch M)) :
    (lowerBranches f staging contested next branches).copies =
      copiesAhead f staging contested branches := by
  induction branches generalizing next with
  | nil => rfl
  | cons branch rest ih =>
      simp only [lowerBranches, ih, copiesAhead, List.filter_cons, Branch.isAhead]
      rcases lowerBranch_cases f staging contested next branch
        with ⟨h, heq⟩ | ⟨h, hc, heq⟩ | ⟨h, hc, heq⟩
      · simp [heq, h]
      · simp [heq, hc]
      · simp [heq, h, hc]

/-- Branches are rerouted one by one, if their edges can be found. -/
theorem lowerBranches_reroute {next : Nat} {branches : List (Branch M)}
    (hlook : ∀ j e, (lowerBranches f staging contested next branches).edges[j]? = some e →
      look (next + j) = some e) :
    ∃ others, (lowerBranches f staging contested next branches).uses = joinBranches [] others ∧
      List.Forall₂ (Reroute f staging contested look) branches others := by
  induction branches generalizing next with
  | nil => exact ⟨[], rfl, .nil⟩
  | cons branch rest ih =>
      have hjoin : ∀ (c : Branch M) (others : List (Branch M)),
          joinBranches [] (c :: others) = .block c.target :: c.args ++ joinBranches [] others := by
        intro c others
        simp [joinBranches]
      simp only [lowerBranches] at hlook ⊢
      rcases lowerBranch_cases f staging contested next branch
        with ⟨h, heq⟩ | ⟨h, hc, heq⟩ | ⟨h, hc, heq⟩
      · rw [heq] at hlook ⊢
        rcases ih fun j e hj => hlook j e (by simpa using hj) with ⟨others, huses, hall⟩
        refine ⟨branch :: others, ?_, .cons (.plain h) hall⟩
        rw [hjoin]
        simpa using huses
      · rw [heq] at hlook ⊢
        -- The edge of this branch is the first one, the others follow.
        have hrest : ∀ j e,
            (lowerBranches f staging contested (next + 1) rest).edges[j]? = some e →
              look (next + 1 + j) = some e := by
          intro j e hj
          have := hlook (j + 1) e (by simpa using hj)
          rwa [show next + (j + 1) = next + 1 + j by omega] at this
        rcases ih hrest with ⟨others, huses, hall⟩
        have hedge : look next = some (branch.edge f staging) := hlook 0 _ (by simp)
        refine ⟨⟨next, []⟩ :: others, ?_, .cons (.detour h hc next hedge) hall⟩
        rw [hjoin]
        simpa using huses
      · rw [heq] at hlook ⊢
        rcases ih fun j e hj => hlook j e (by simpa using hj) with ⟨others, huses, hall⟩
        refine ⟨⟨branch.target, []⟩ :: others, ?_, .cons (.ahead h hc) hall⟩
        rw [hjoin]
        simpa using huses

/-- An edge comes from a branch to a contested target with inputs. -/
theorem mem_edges_lowerBranches {next : Nat} {branches : List (Branch M)} {e : Block M}
    (h : e ∈ (lowerBranches f staging contested next branches).edges) :
    ∃ branch ∈ branches, f.inputsOf branch.target ≠ [] ∧ contested branch.target = true ∧
      e = branch.edge f staging := by
  induction branches generalizing next with
  | nil => exact absurd h (by simp [lowerBranches])
  | cons branch rest ih =>
      simp only [lowerBranches, List.mem_append] at h
      rcases h with h | h
      · rcases lowerBranch_cases f staging contested next branch
          with ⟨_, heq⟩ | ⟨hinputs, hc, heq⟩ | ⟨_, _, heq⟩
        · exact absurd h (by simp [heq])
        · rw [heq] at h
          exact ⟨branch, by simp, hinputs, hc, by simpa using h⟩
        · exact absurd h (by simp [heq])
      · rcases ih h with ⟨other, hother, hrest⟩
        exact ⟨other, by simp [hother], hrest⟩

theorem lowerRun_copies (next : Nat) (run : List (Instr M)) :
    (lowerRun f staging contested next run).copies =
      copiesAhead f staging contested (run.flatMap Instr.branches) := by
  induction run generalizing next with
  | nil => rfl
  | cons i rest ih =>
      simp only [lowerRun, ih, lowerBranches_copies, copiesAhead, List.flatMap_cons,
        List.filter_append, List.flatMap_append]

/-- The arguments of rerouted branches hold no block reference either. -/
theorem Reroute.block_eq_none {branch other : Branch M}
    (h : Reroute f staging contested look branch other)
    (hargs : ∀ u ∈ branch.args, u.block? = none) : ∀ u ∈ other.args, u.block? = none := by
  cases h with
  | plain => exact hargs
  | ahead => simp
  | detour => simp

theorem rerouted_of_uses {i : Instr M} {others : List (Branch M)} {uses : List (Operand M)}
    (huses : uses = joinBranches [] others)
    (hall : List.Forall₂ (Reroute f staging contested look) i.branches others) :
    i.Rerouted f staging contested look { i with uses := i.leading ++ uses } := by
  -- Arguments name no blocks, so the operands split where they were joined.
  have hargs : ∀ branch ∈ others, ∀ u ∈ branch.args, u.block? = none := by
    intro branch hbranch
    rcases exists_left_of_forall₂ hall hbranch with ⟨old, hold, hroute⟩
    exact hroute.block_eq_none fun u hu => Instr.block_eq_none_of_mem_args hold hu
  have hjoin : i.leading ++ uses = joinBranches i.leading others := by
    rw [huses]
    simp [joinBranches]
  have hsplit : splitBranches (i.leading ++ uses) = (i.leading, others) := by
    rw [hjoin]
    exact splitBranches_joinBranches (fun u hu => Instr.block_eq_none_of_mem_leading hu) hargs
  refine ⟨rfl, rfl, ?_, ?_⟩
  · change (splitBranches (i.leading ++ uses)).1 = i.leading
    rw [hsplit]
  · change List.Forall₂ _ i.branches (splitBranches (i.leading ++ uses)).2
    rw [hsplit]
    exact hall

/-- Terminators are rerouted one by one, if their edges can be found. -/
theorem lowerRun_rerouted {next : Nat} {run : List (Instr M)}
    (hlook : ∀ j e, (lowerRun f staging contested next run).edges[j]? = some e →
      look (next + j) = some e) :
    List.Forall₂ (Instr.Rerouted f staging contested look) run
      (lowerRun f staging contested next run).run := by
  induction run generalizing next with
  | nil => exact .nil
  | cons i rest ih =>
      simp only [lowerRun] at hlook ⊢
      -- The edges of the first instruction come first, those of the others behind them.
      have hhere : ∀ j e,
          (lowerBranches f staging contested next i.branches).edges[j]? = some e →
            look (next + j) = some e := by
        intro j e hj
        refine hlook j e ?_
        rw [List.getElem?_append_left (List.getElem?_eq_some_iff.mp hj).1]
        exact hj
      rcases lowerBranches_reroute hhere with ⟨others, huses, hall⟩
      refine .cons (rerouted_of_uses huses hall) (ih fun j e hj => ?_)
      rw [Nat.add_assoc]
      refine hlook _ e ?_
      rw [List.getElem?_append_right (by omega), Nat.add_sub_cancel_left]
      exact hj

theorem mem_edges_lowerRun {next : Nat} {run : List (Instr M)} {e : Block M}
    (h : e ∈ (lowerRun f staging contested next run).edges) :
    ∃ i ∈ run, ∃ branch ∈ i.branches, f.inputsOf branch.target ≠ [] ∧
      contested branch.target = true ∧ e = branch.edge f staging := by
  induction run generalizing next with
  | nil => exact absurd h (by simp [lowerRun])
  | cons i rest ih =>
      simp only [lowerRun, List.mem_append] at h
      rcases h with h | h
      · exact ⟨i, by simp, mem_edges_lowerBranches h⟩
      · rcases ih h with ⟨j, hj, hrest⟩
        exact ⟨j, by simp [hj], hrest⟩

/-- Every block is lowered where it stands, if the edges can be found. -/
theorem lowerBlocks_lowersTo {next : Nat} {blocks : List (Block M)}
    (hlook : ∀ j e, (lowerBlocks f staging next blocks).2[j]? = some e →
      look (next + j) = some e) :
    List.Forall₂ (Block.LowersTo f staging look) blocks (lowerBlocks f staging next blocks).1 := by
  induction blocks generalizing next with
  | nil => exact .nil
  | cons b rest ih =>
      simp only [lowerBlocks] at hlook ⊢
      -- The edges of this block come first among all, those of the others behind them.
      refine .cons ⟨rfl, (lowerRun f staging b.contests next b.run).run, ?_, ?_⟩
        (ih fun j e hj => ?_)
      · refine lowerRun_rerouted fun j e hj => hlook j e ?_
        rw [List.getElem?_append_left (List.getElem?_eq_some_iff.mp hj).1]
        exact hj
      · rw [← lowerRun_copies next]
      · rw [Nat.add_assoc]
        refine hlook _ e ?_
        rw [List.getElem?_append_right (by omega), Nat.add_sub_cancel_left]
        exact hj

theorem length_lowerBlocks (next : Nat) (blocks : List (Block M)) :
    (lowerBlocks f staging next blocks).1.length = blocks.length := by
  induction blocks generalizing next with
  | nil => rfl
  | cons b rest ih => simp [lowerBlocks, ih]

theorem mem_edges_lowerBlocks {next : Nat} {blocks : List (Block M)} {e : Block M}
    (h : e ∈ (lowerBlocks f staging next blocks).2) :
    ∃ b ∈ blocks, ∃ i ∈ b.run, ∃ branch ∈ i.branches, f.inputsOf branch.target ≠ [] ∧
      b.contests branch.target = true ∧ e = branch.edge f staging := by
  induction blocks generalizing next with
  | nil => exact absurd h (by simp [lowerBlocks])
  | cons b rest ih =>
      simp only [lowerBlocks, List.mem_append] at h
      rcases h with h | h
      · exact ⟨b, by simp, mem_edges_lowerRun h⟩
      · rcases ih h with ⟨c, hc, hrest⟩
        exact ⟨c, by simp [hc], hrest⟩

theorem mem_references {i : Instr M} {target : Nat} :
    target ∈ i.references ↔ .block target ∈ i.uses := by
  unfold Instr.references
  rw [List.mem_filterMap]
  constructor
  · rintro ⟨u, hu, hblock⟩
    cases u with
    | block c =>
        have hc : c = target := by simpa [Operand.block?] using hblock
        exact hc ▸ hu
    | reg r => exact absurd hblock (by simp [Operand.block?])
    | imm x => exact absurd hblock (by simp [Operand.block?])
    | frame slot offset => exact absurd hblock (by simp [Operand.block?])
    | global name => exact absurd hblock (by simp [Operand.block?])
  · exact fun h => ⟨.block target, h, rfl⟩

/-- Every edge is the target of the branch that it stands for. -/
theorem edge_mem_uses {next j : Nat} {branches : List (Branch M)}
    (hj : j < (lowerBranches f staging contested next branches).edges.length) :
    .block (next + j) ∈ (lowerBranches f staging contested next branches).uses := by
  induction branches generalizing next j with
  | nil => exact absurd hj (by simp [lowerBranches])
  | cons branch rest ih =>
      simp only [lowerBranches, List.length_append] at hj ⊢
      rcases lowerBranch_cases f staging contested next branch with
        ⟨_, heq⟩ | ⟨_, _, heq⟩ | ⟨_, _, heq⟩
      · rw [heq] at hj ⊢
        exact List.mem_append.mpr (Or.inr (ih (by simpa using hj)))
      · rw [heq] at hj ⊢
        -- The first edge is that of this branch.
        cases j with
        | zero => simp
        | succ j =>
            simp only [List.length_singleton] at hj
            rw [show next + (j + 1) = next + 1 + j by omega]
            exact List.mem_append.mpr (Or.inr (ih (by simp only [List.length_singleton]; omega)))
      · rw [heq] at hj ⊢
        exact List.mem_append.mpr (Or.inr (ih (by simpa using hj)))

theorem edge_referenced_run (next : Nat) {j : Nat} {run : List (Instr M)}
    (hrun : ∀ i ∈ run, i.isTerminator = true)
    (hj : j < (lowerRun f staging contested next run).edges.length) :
    ∃ i ∈ (lowerRun f staging contested next run).run, i.isTerminator = true ∧
      next + j ∈ i.references := by
  induction run generalizing next j with
  | nil => exact absurd hj (by simp [lowerRun])
  | cons i rest ih =>
      simp only [lowerRun, List.length_append] at hj ⊢
      by_cases hhere : j < (lowerBranches f staging contested next i.branches).edges.length
      · refine ⟨_, List.mem_cons_self, hrun i (by simp), mem_references.mpr ?_⟩
        exact List.mem_append.mpr (Or.inr (edge_mem_uses hhere))
      · -- The edges of the first instruction are counted off, and so are their numbers.
        rcases Nat.exists_eq_add_of_le (Nat.not_lt.mp hhere) with ⟨later, rfl⟩
        rcases ih _ (fun k hk => hrun k (by simp [hk])) (Nat.lt_of_add_lt_add_left hj) with
          ⟨k, hk, hterm, href⟩
        rw [Nat.add_assoc] at href
        exact ⟨k, by simp [hk], hterm, href⟩

theorem edge_referenced_blocks (next : Nat) {j : Nat} (blocks : List (Block M))
    (hj : j < (lowerBlocks f staging next blocks).2.length) :
    ∃ c ∈ (lowerBlocks f staging next blocks).1, ∃ i ∈ c.code, i.isTerminator = true ∧
      next + j ∈ i.references := by
  induction blocks generalizing next j with
  | nil => exact absurd hj (by simp [lowerBlocks])
  | cons b rest ih =>
      simp only [lowerBlocks, List.length_append] at hj ⊢
      -- Edges are numbered block by block.
      by_cases hhere : j < (lowerRun f staging b.contests next b.run).edges.length
      · rcases edge_referenced_run next (fun i hi => Block.isTerminator_of_mem_run hi) hhere with
          ⟨i, hi, hterm, href⟩
        exact ⟨_, List.mem_cons_self, i, List.mem_append.mpr (Or.inr hi), hterm, href⟩
      · rcases Nat.exists_eq_add_of_le (Nat.not_lt.mp hhere) with ⟨later, rfl⟩
        rcases ih _ (Nat.lt_of_add_lt_add_left hj) with ⟨c, hc, i, hi, hterm, href⟩
        rw [Nat.add_assoc] at href
        exact ⟨c, by simp [hc], i, hi, hterm, href⟩

namespace Function

/-- The edges among the blocks of the function with copies, as a lookup. -/
def edge? (f : Function M) (staging : Staging M) (k : Nat) : Option (Block M) :=
  if k < f.size then none else (f.withCopies staging).blocks[k]?

theorem edge_eq_some_iff {k : Nat} {e : Block M} :
    f.edge? staging k = some e ↔ f.size ≤ k ∧ (f.withCopies staging).blocks[k]? = some e := by
  unfold edge?
  by_cases hk : k < f.size
  · rw [if_pos hk]
    constructor
    · intro h
      exact absurd h (by simp)
    · rintro ⟨hle, _⟩
      omega
  · rw [if_neg hk]
    exact ⟨fun h => ⟨by omega, h⟩, fun h => h.2⟩

theorem blocks_withCopies :
    (f.withCopies staging).blocks =
      (lowerBlocks f staging f.size f.blocks).1 ++ (lowerBlocks f staging f.size f.blocks).2 :=
  rfl

theorem size_withCopies :
    (f.withCopies staging).size = f.size + (lowerBlocks f staging f.size f.blocks).2.length := by
  rw [size, blocks_withCopies, List.length_append, length_lowerBlocks]
  rfl

theorem forall₂_lowersTo (f : Function M) (staging : Staging M) :
    List.Forall₂ (Block.LowersTo f staging (f.edge? staging)) f.blocks
      (lowerBlocks f staging f.size f.blocks).1 := by
  have hlen : (lowerBlocks f staging f.size f.blocks).1.length = f.size :=
    length_lowerBlocks f.size f.blocks
  refine lowerBlocks_lowersTo fun j e hj => ?_
  refine edge_eq_some_iff.mpr ⟨by omega, ?_⟩
  rw [blocks_withCopies, List.getElem?_append_right (by omega), hlen, Nat.add_sub_cancel_left]
  exact hj

/-- Block `b` of the function becomes block `b` of the function with copies. -/
theorem withCopies_of_block (staging : Staging M) {b : Nat} {block : Block M}
    (hb : f.blocks[b]? = some block) :
    ∃ c, (f.withCopies staging).blocks[b]? = some c ∧
      block.LowersTo f staging (f.edge? staging) c := by
  rcases getElem?_of_forall₂ (forall₂_lowersTo f staging) hb with ⟨c, hc, hlowers⟩
  refine ⟨c, ?_, hlowers⟩
  rw [blocks_withCopies, List.getElem?_append_left (List.getElem?_eq_some_iff.mp hc).1]
  exact hc

/-- The other blocks of the function with copies are edges of its branches. -/
theorem withCopies_of_edge {k : Nat} {e : Block M}
    (hk : (f.withCopies staging).blocks[k]? = some e) (hsize : f.size ≤ k) :
    ∃ b ∈ f.blocks, ∃ i ∈ b.run, ∃ branch ∈ i.branches, f.inputsOf branch.target ≠ [] ∧
      b.contests branch.target = true ∧ e = branch.edge f staging := by
  have hlen : (lowerBlocks f staging f.size f.blocks).1.length = f.size :=
    length_lowerBlocks f.size f.blocks
  rw [blocks_withCopies, List.getElem?_append_right (by omega)] at hk
  exact mem_edges_lowerBlocks (List.mem_of_getElem? hk)

/-- Some terminator of a block below the edges refers to each of them. -/
theorem edge_referenced {k : Nat} (hk : k < (f.withCopies staging).size) (hsize : f.size ≤ k) :
    ∃ b < f.size, ∃ c, (f.withCopies staging).blocks[b]? = some c ∧
      ∃ i ∈ c.code, i.isTerminator = true ∧ k ∈ i.references := by
  rcases Nat.exists_eq_add_of_le hsize with ⟨j, rfl⟩
  rw [size_withCopies] at hk
  rcases edge_referenced_blocks f.size f.blocks (Nat.lt_of_add_lt_add_left hk) with
    ⟨c, hc, i, hi, hterm, href⟩
  -- The block that jumps there is one of the old ones.
  rcases List.getElem?_of_mem hc with ⟨b, hb⟩
  have hlt := (List.getElem?_eq_some_iff.mp hb).1
  refine ⟨b, ?_, c, ?_, i, hi, hterm, href⟩
  · rw [length_lowerBlocks] at hlt
    exact hlt
  · rw [blocks_withCopies, List.getElem?_append_left hlt]
    exact hb

theorem size_le_withCopies : f.size ≤ (f.withCopies staging).size := by
  rw [size_withCopies]
  omega

end Function

end RegisterColoring
