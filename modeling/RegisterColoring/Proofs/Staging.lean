import RegisterColoring.JoinCopies
import RegisterColoring.Proofs.Defined

/-!
# Staging Registers

Every input of a block that is jumped to has a staging register of its own. Two
facts about them carry everything that is said about the copies: inputs with
different ids have different staging registers, and a staging register is none of
the registers of the function. Both come from the supply, as long as the ids that
it hands out lie above those in use. That also keeps it from starting over, which
would bring it back to zero.

Nothing else about the numbers matters, so `Staging.Apart` keeps just these facts.
A function in single assignment form has all inputs supplied, except for an entry
block that nothing jumps to: any other block with inputs is reached by a jump, and
the jump passes an argument for each.

## Main definitions

* `Function.IdsBelow`: All ids of a function lie below a number.
* `Supply.FreshFor`: A supply hands out ids above those in use.
* `stageOf`: The staging register of an input.
* `Staging.Apart`: Staging registers are different and new.
* `Function.InputsApart`: Inputs are different.
* `Function.EntrySupplied`: The inputs of the entry block, if it has any, are jumped to.

## Theorems

* `Function.apart_staging`: Staging registers are apart if the ids drawn for them are.
* `Function.exists_apart_staging`: The staging registers of a supply are different and new.
* `Function.SingleAssignment.inputsApart`: An id is an input of one block only.
* `Function.SingleAssignment.lowerInputs_eq_ok`: Inputs can be replaced.
-/

namespace RegisterColoring

variable {M : Machine}

/-- The ids of all virtual registers of the function lie below `n`. -/
def Function.IdsBelow (f : Function M) (n : Nat) : Prop :=
  ∀ v : VReg M, .virtual v ∈ f.registers → v.id < n

instance (f : Function M) (n : Nat) : Decidable (f.IdsBelow n) :=
  decidable_of_iff (∀ v ∈ f.vregs, v.id < n)
    ⟨fun h v hv => h v (Function.mem_vregs.mpr hv), fun h v hv => h v (Function.mem_vregs.mp hv)⟩

/-- Each of the next `count` ids of the supply lies above all ids of the function. -/
def Supply.FreshFor (supply : Supply) (f : Function M) (count : Nat) : Prop :=
  ∀ k < count, f.IdsBelow (supply.regId k)

instance (supply : Supply) (f : Function M) (count : Nat) : Decidable (supply.FreshFor f count) :=
  inferInstanceAs (Decidable (∀ k < count, f.IdsBelow (supply.regId k)))

/-- The staging register of an input. -/
def stageOf (staging : Staging M) (v : VReg M) : VReg M :=
  (staging.lookup v.id).getD v

/-- Every input of the function has a staging register, different ids have
    different ones, and their ids are at least `n`. -/
structure Staging.Apart (staging : Staging M) (f : Function M) (n : Nat) : Prop where
  found : ∀ b ∈ f.blocks, ∀ v ∈ b.inputs, ∃ w, staging.lookup v.id = some w
  apart : ∀ a b v w, staging.lookup a = some v → staging.lookup b = some w → v.id = w.id → a = b
  above : ∀ a w, staging.lookup a = some w → n ≤ w.id

/-- The inputs of a block are different, and no id is an input of two blocks. -/
structure Function.InputsApart (f : Function M) : Prop where
  nodup : ∀ b, (f.inputsOf b).Nodup
  apart : ∀ b c v w, v ∈ f.inputsOf b → w ∈ f.inputsOf c → v.id = w.id → b = c ∧ v = w

theorem mem_of_lookup {α : Type} {l : List (Nat × α)} {a : Nat} {x : α}
    (h : l.lookup a = some x) : (a, x) ∈ l := by
  rcases List.lookup_eq_some_iff.mp h with ⟨before, after, rfl, _⟩
  simp

theorem exists_lookup_of_mem {α : Type} {l : List (Nat × α)} {a : Nat}
    (h : a ∈ l.map Prod.fst) : ∃ x, l.lookup a = some x := by
  rcases List.mem_map.mp h with ⟨entry, hentry, rfl⟩
  exact Option.isSome_iff_exists.mp (List.lookup_isSome_iff.mpr ⟨entry, hentry, by simp⟩)

/-- Of each id there is one register left, and no id of those seen before. -/
theorem distinctIds_spec (seen : List Nat) (l : List (VReg M)) :
    ((distinctIds seen l).map VReg.id).Nodup ∧
      (∀ v ∈ distinctIds seen l, v ∈ l ∧ v.id ∉ seen) ∧
        ∀ v ∈ l, v.id ∉ seen → v.id ∈ (distinctIds seen l).map VReg.id := by
  induction l generalizing seen with
  | nil => simp [distinctIds]
  | cons v rest ih =>
      rw [distinctIds]
      by_cases hv : v.id ∈ seen
      · -- Skipped, so nothing changes but the list that the rest is a part of.
        rw [if_pos (by simpa using hv)]
        rcases ih seen with ⟨hnodup, hmem, hall⟩
        refine ⟨hnodup, fun w hw => ⟨List.mem_cons_of_mem _ (hmem w hw).1, (hmem w hw).2⟩, ?_⟩
        intro w hw hnew
        rcases List.mem_cons.mp hw with rfl | hw
        · exact absurd hv hnew
        · exact hall w hw hnew
      · rw [if_neg (by simpa using hv)]
        rcases ih (v.id :: seen) with ⟨hnodup, hmem, hall⟩
        refine ⟨?_, fun w hw => ?_, fun w hw hnew => ?_⟩
        · rw [List.map_cons, List.nodup_cons]
          refine ⟨fun hin => ?_, hnodup⟩
          rcases List.mem_map.mp hin with ⟨w, hw, hid⟩
          exact (hmem w hw).2 (by simp [hid])
        · rcases List.mem_cons.mp hw with rfl | hw
          · exact ⟨by simp, hv⟩
          · exact ⟨List.mem_cons_of_mem _ (hmem w hw).1, fun hin => (hmem w hw).2 (by simp [hin])⟩
        · rw [List.map_cons, List.mem_cons]
          by_cases hid : w.id = v.id
          · exact Or.inl hid
          · rcases List.mem_cons.mp hw with rfl | hw
            · exact absurd rfl hid
            · exact Or.inr (hall w hw (by simp [hid, hnew]))

namespace Function

variable {f : Function M} {supply : Supply}

theorem staging_map_fst :
    (f.staging supply).map Prod.fst = (distinctIds [] f.suppliedInputs).map VReg.id := by
  unfold staging
  rw [List.map_map]
  refine List.ext_getElem? fun k => ?_
  simp [List.getElem?_map, List.getElem?_zipIdx, Option.map_map, Function.comp_def]

theorem length_staging : (f.staging supply).length = (distinctIds [] f.suppliedInputs).length := by
  simp [staging]

/-- A staging register is the one that its place among the inputs gives. -/
theorem staging_lookup {a : Nat} {w : VReg M} (h : (f.staging supply).lookup a = some w) :
    ∃ k v, (distinctIds [] f.suppliedInputs)[k]? = some v ∧ v.id = a ∧
      w = ⟨supply.regId k, v.cls⟩ := by
  have hmem := mem_of_lookup h
  unfold staging at hmem
  rcases List.mem_map.mp hmem with ⟨⟨v, k⟩, hk, heq⟩
  rw [Prod.mk.injEq] at heq
  exact ⟨k, v, List.mem_zipIdx_iff_getElem?.mp hk, heq.1, heq.2.symm⟩

theorem staging_found (supply : Supply) {v : VReg M} (h : v ∈ f.suppliedInputs) :
    ∃ w, (f.staging supply).lookup v.id = some w := by
  refine exists_lookup_of_mem ?_
  rw [staging_map_fst]
  exact (distinctIds_spec [] f.suppliedInputs).2.2 v h (by simp)

theorem mem_inputsOf {b : Nat} {v : VReg M} (h : v ∈ f.inputsOf b) :
    ∃ block, f.blocks[b]? = some block ∧ v ∈ block.inputs := by
  unfold inputsOf at h
  cases hb : f.blocks[b]? with
  | none => rw [hb] at h; exact absurd h (by simp)
  | some block => exact ⟨block, rfl, by rw [hb] at h; exact h⟩

/-- While the ids of a supply stay above one in use, they are consecutive. -/
theorem regId_eq {count k : Nat} (hfresh : supply.FreshFor f count) {v : VReg M}
    (hv : .virtual v ∈ f.registers) (hk : k < count) :
    supply.regId k = supply.registers % Supply.capacity + k := by
  have hmod : ∀ j, supply.regId j = (supply.registers % Supply.capacity + j) % Supply.capacity :=
    fun j => by rw [Supply.regId, Nat.mod_add_mod]
  have hlt : supply.registers % Supply.capacity < Supply.capacity := Nat.mod_lt _ (by decide)
  rw [hmod]
  refine Nat.mod_eq_of_lt ?_
  by_contra hwrap
  -- A supply that starts over hands out the id zero, and nothing lies below it.
  have hzero : supply.regId (Supply.capacity - supply.registers % Supply.capacity) = 0 := by
    rw [hmod, Nat.add_sub_cancel' (Nat.le_of_lt hlt), Nat.mod_self]
  have habove := hfresh (Supply.capacity - supply.registers % Supply.capacity) (by omega) v hv
  omega

theorem exists_idsBelow (f : Function M) : ∃ n, f.IdsBelow n := by
  -- A finite list of ids has an upper bound.
  have hlist : ∀ l : List (Register M), ∃ n, ∀ v : VReg M, .virtual v ∈ l → v.id < n := by
    intro l
    induction l with
    | nil => exact ⟨0, by simp⟩
    | cons r l ih =>
        rcases ih with ⟨n, hn⟩
        cases r with
        | physical p => exact ⟨n, fun v hv => hn v (by simpa using hv)⟩
        | virtual w =>
            refine ⟨max n (w.id + 1), fun v hv => ?_⟩
            rcases List.mem_cons.mp hv with heq | hv
            · rw [Register.virtual.injEq] at heq
              rw [heq]
              omega
            · have := hn v hv
              omega
  exact hlist f.registers

theorem mem_suppliedInputs {v : VReg M} (h : v ∈ f.suppliedInputs) :
    .virtual v ∈ f.registers := by
  rcases List.mem_flatMap.mp h with ⟨_, _, h⟩
  rcases List.mem_flatMap.mp h with ⟨_, _, h⟩
  rcases List.mem_flatMap.mp h with ⟨branch, _, h⟩
  rcases mem_inputsOf (List.mem_of_mem_take h) with ⟨block, hblock, hin⟩
  exact mem_registers_of_input (List.mem_of_getElem? hblock) hin

/-- The staging registers are apart if the ids drawn for them are, and none is in use. -/
theorem apart_staging (hfound : f.missingArgument? (f.staging supply) = none) {n : Nat}
    (hinj : ∀ j < (f.staging supply).length, ∀ k < (f.staging supply).length,
      supply.regId j = supply.regId k → j = k)
    (habove : ∀ k < (f.staging supply).length, n ≤ supply.regId k) :
    (f.staging supply).Apart f n where
  found b hb v hv := by
    rcases List.getElem?_of_mem hb with ⟨label, hlabel⟩
    have hnone := findSome?_zipIdx_eq_none_iff.mp hfound label b hlabel
    rw [Option.map_eq_none_iff, List.find?_eq_none] at hnone
    exact Option.isSome_iff_exists.mp (by simpa using hnone v hv)
  apart a b v w ha hb hid := by
    -- Equal staging ids come from one place in the list of inputs.
    rcases staging_lookup ha with ⟨j, p, hj, rfl, rfl⟩
    rcases staging_lookup hb with ⟨k, q, hk, rfl, rfl⟩
    have hjk : j = k := by
      refine hinj j ?_ k ?_ hid
      · rw [length_staging]
        exact (List.getElem?_eq_some_iff.mp hj).1
      · rw [length_staging]
        exact (List.getElem?_eq_some_iff.mp hk).1
    subst hjk
    rw [hj, Option.some.injEq] at hk
    rw [hk]
  above a w ha := by
    rcases staging_lookup ha with ⟨k, v, hk, _, rfl⟩
    refine habove k ?_
    rw [length_staging]
    exact (List.getElem?_eq_some_iff.mp hk).1

/-- The staging registers that a supply of fresh ids gives are different and new. -/
theorem exists_apart_staging (hfound : f.missingArgument? (f.staging supply) = none)
    (hfresh : supply.FreshFor f (f.staging supply).length) :
    ∃ n, f.IdsBelow n ∧ (f.staging supply).Apart f n := by
  have hregId : ∀ k < (f.staging supply).length,
      supply.regId k = supply.registers % Supply.capacity + k := by
    intro k hk
    -- There is an input for each of them, so some id is in use.
    have hlt := hk
    rw [length_staging] at hlt
    have hv := ((distinctIds_spec [] f.suppliedInputs).2.1 _ (List.getElem_mem hlt)).1
    exact regId_eq hfresh (mem_suppliedInputs hv) hk
  have hinj : ∀ j < (f.staging supply).length, ∀ k < (f.staging supply).length,
      supply.regId j = supply.regId k → j = k := by
    intro j hj k hk heq
    have := hregId j hj
    have := hregId k hk
    omega
  cases hsize : (f.staging supply).length with
  | zero =>
      -- Without inputs nothing is drawn, and any bound on the ids in use will do.
      rcases exists_idsBelow f with ⟨n, hn⟩
      exact ⟨n, hn, apart_staging hfound hinj fun k hk => absurd hk (by omega)⟩
  | succ m =>
      refine ⟨supply.regId 0, hfresh 0 (by omega), apart_staging hfound hinj fun k hk => ?_⟩
      have := hregId 0 (by omega)
      have := hregId k hk
      omega

theorem mem_ids_of_input {block : Block M} {v : VReg M} (hv : v ∈ block.inputs) :
    v.id ∈ block.ids :=
  List.mem_append.mpr (Or.inl (List.mem_map.mpr ⟨v, hv, rfl⟩))

theorem SingleAssignment.inputsApart (h : f.SingleAssignment) : f.InputsApart := by
  have hinputs : ∀ block ∈ f.blocks, (block.inputs.map VReg.id).Nodup :=
    fun block hblock => (Block.ids_nodup_iff.mp (h.ids_nodup hblock)).1
  constructor
  · intro b
    unfold inputsOf
    cases hb : f.blocks[b]? with
    | none => exact List.nodup_nil
    | some block => exact (hinputs block (List.mem_of_getElem? hb)).of_map
  · intro b c v w hv hw hid
    rcases mem_inputsOf hv with ⟨block, hblock, hin⟩
    rcases mem_inputsOf hw with ⟨other, hother, hin'⟩
    -- One id is introduced by one block only.
    have hbc : b = c := h.block_unique hblock hother (mem_ids_of_input hin)
      (hid ▸ mem_ids_of_input hin')
    subst hbc
    rw [hblock, Option.some.injEq] at hother
    subst hother
    exact ⟨rfl, List.inj_on_of_nodup_map (hinputs block (List.mem_of_getElem? hblock)) hin hin' hid⟩

/-- Inputs can be replaced if every block with inputs is referred to, every
    reference is to a block, and every input has a staging register. -/
theorem lowerInputs_eq_ok_iff {g : Function M} {rest : Supply} :
    f.lowerInputs supply = .ok (g, rest) ↔
      f.unsuppliedInput? = none ∧ f.missingTarget? = none ∧
        f.missingArgument? (f.staging supply) = none ∧ g = f.withCopies (f.staging supply) ∧
          rest = supply.afterRegs (f.staging supply).length := by
  unfold lowerInputs
  cases f.unsuppliedInput? with
  | some cause => simp
  | none =>
      cases f.missingTarget? with
      | some cause => simp
      | none =>
          cases hmissing : f.missingArgument? (f.staging supply) with
          | some cause => simp [hmissing]
          | none => simp [hmissing, eq_comm]

/-- A block other than the entry is the target of a jump. -/
theorem SingleAssignment.exists_branch (h : f.SingleAssignment) {c : Nat} (hc : c < f.size)
    (hne : c ≠ 0) :
    ∃ block ∈ f.blocks, ∃ i ∈ block.run, ∃ branch ∈ i.branches, branch.target = c := by
  rcases h.exists_walk hc with ⟨path, hwalk⟩
  cases hwalk with
  | start => exact absurd rfl hne
  | step _ hedge =>
      rcases mem_next.mp hedge with ⟨block, hblock, ⟨i, hi, href⟩, _⟩
      rw [Instr.references_eq, List.mem_map] at href
      rcases href with ⟨branch, hbranch, htarget⟩
      exact ⟨block, List.mem_of_getElem? hblock, i, hi, branch, hbranch, htarget⟩

theorem SingleAssignment.fits_run (h : f.SingleAssignment) {block : Block M}
    (hblock : block ∈ f.blocks) {i : Instr M} (hi : i ∈ block.run) {branch : Branch M}
    (hbranch : branch ∈ i.branches) : branch.Fits f :=
  h.fits block hblock i (Block.mem_code_iff.mpr (Or.inr hi)) (Block.isTerminator_of_mem_run hi)
    branch hbranch

theorem mem_suppliedBlocks_iff {c : Nat} :
    c ∈ f.suppliedBlocks ↔ ∃ i ∈ f.instructions, i.isTerminator = true ∧ c ∈ i.references := by
  unfold suppliedBlocks
  rw [List.mem_flatMap]
  constructor
  · rintro ⟨i, hi, href⟩
    exact ⟨i, (List.mem_filter.mp hi).1, (List.mem_filter.mp hi).2, href⟩
  · rintro ⟨i, hi, hterm, href⟩
    exact ⟨i, List.mem_filter.mpr ⟨hi, hterm⟩, href⟩

/-- The entry block has no inputs, or some terminator refers to it. -/
def EntrySupplied (f : Function M) : Prop :=
  f.inputsOf 0 = [] ∨ ∃ i ∈ f.instructions, i.isTerminator = true ∧ 0 ∈ i.references

/-- A block with inputs is the target of a jump. -/
theorem SingleAssignment.exists_branch_of_input (h : f.SingleAssignment)
    (hentry : f.EntrySupplied) {c : Nat} {v : VReg M} (hv : v ∈ f.inputsOf c) :
    ∃ block ∈ f.blocks, ∃ i ∈ block.run, ∃ branch ∈ i.branches, branch.target = c := by
  rcases mem_inputsOf hv with ⟨target, htarget, _⟩
  by_cases hc : c = 0
  · -- The entry has inputs, so it is one that a terminator refers to.
    subst hc
    rcases hentry with hnone | ⟨i, hi, hterm, href⟩
    · rw [hnone] at hv
      exact absurd hv (by simp)
    · rcases List.mem_flatMap.mp hi with ⟨block, hblock, hi⟩
      rw [Instr.references_eq, List.mem_map] at href
      rcases href with ⟨branch, hbranch, heq⟩
      exact ⟨block, hblock, i, (h.terminated block hblock).mem_run hi hterm, branch, hbranch, heq⟩
  · exact h.exists_branch (List.getElem?_eq_some_iff.mp htarget).1 hc

theorem SingleAssignment.unsupplied_eq_none_of_supplied (h : f.SingleAssignment)
    (hentry : f.EntrySupplied) : f.unsuppliedInput? = none := by
  refine findSome?_zipIdx_eq_none_iff.mpr fun label b hlabel => ?_
  cases hinputs : b.inputs with
  | nil => simp [hinputs]
  | cons v rest =>
      have hv : v ∈ f.inputsOf label := by
        rw [inputsOf_eq hlabel, hinputs]
        exact List.mem_cons_self
      rcases h.exists_branch_of_input hentry hv with
        ⟨block, hblock, i, hi, branch, hbranch, htarget⟩
      have hsupplied : label ∈ f.suppliedBlocks := by
        refine mem_suppliedBlocks_iff.mpr ⟨i, ?_, Block.isTerminator_of_mem_run hi, ?_⟩
        · exact mem_instructions hblock (Block.mem_code_iff.mpr (Or.inr hi))
        · rw [Instr.references_eq]
          exact List.mem_map.mpr ⟨branch, hbranch, htarget⟩
      simp [hinputs, hsupplied]

theorem SingleAssignment.unsupplied_eq_none (h : f.SingleAssignment) (hentry : f.inputsOf 0 = []) :
    f.unsuppliedInput? = none :=
  h.unsupplied_eq_none_of_supplied (Or.inl hentry)

theorem SingleAssignment.missingTarget_eq_none (h : f.SingleAssignment) :
    f.missingTarget? = none := by
  refine findSome?_zipIdx_eq_none_iff.mpr fun label b hlabel => ?_
  have hblock := List.mem_of_getElem? hlabel
  rw [Option.map_eq_none_iff, List.find?_eq_none]
  intro target htarget
  rcases List.mem_flatMap.mp htarget with ⟨i, hi, href⟩
  rw [Instr.references_eq, List.mem_map] at href
  rcases href with ⟨branch, hbranch, rfl⟩
  rcases h.fits_run hblock hi hbranch with ⟨other, hother, _⟩
  have hlt : branch.target < f.size := (List.getElem?_eq_some_iff.mp hother).1
  simp [below, hlt]

theorem SingleAssignment.missingArgument_eq_none_of_supplied (h : f.SingleAssignment)
    (hentry : f.EntrySupplied) : f.missingArgument? (f.staging supply) = none := by
  refine findSome?_zipIdx_eq_none_iff.mpr fun label b hlabel => ?_
  rw [Option.map_eq_none_iff, List.find?_eq_none]
  intro v hv
  have hin : v ∈ f.inputsOf label := by
    rw [inputsOf_eq hlabel]
    exact hv
  rcases h.exists_branch_of_input hentry hin with ⟨block, hblock, i, hi, branch, hbranch, htarget⟩
  rcases h.fits_run hblock hi hbranch with ⟨other, hother, hlen⟩
  rw [htarget, hlabel, Option.some.injEq] at hother
  -- The jump passes an argument for every input, so all of them are supplied.
  have hsupplied : v ∈ f.suppliedInputs := by
    refine List.mem_flatMap.mpr ⟨block, hblock, List.mem_flatMap.mpr ⟨i, hi, ?_⟩⟩
    refine List.mem_flatMap.mpr ⟨branch, hbranch, ?_⟩
    rw [htarget, inputsOf_eq hlabel, hlen, ← hother, List.take_length]
    exact hv
  rcases staging_found supply hsupplied with ⟨w, hw⟩
  simp [hw]

theorem SingleAssignment.missingArgument_eq_none (h : f.SingleAssignment)
    (hentry : f.inputsOf 0 = []) : f.missingArgument? (f.staging supply) = none :=
  h.missingArgument_eq_none_of_supplied (Or.inl hentry)

/-- In single assignment form, inputs can be replaced unless the entry has some. -/
theorem SingleAssignment.lowerInputs_eq_ok (h : f.SingleAssignment) (hentry : f.inputsOf 0 = []) :
    f.lowerInputs supply = .ok
      (f.withCopies (f.staging supply), supply.afterRegs (f.staging supply).length) :=
  lowerInputs_eq_ok_iff.mpr ⟨h.unsupplied_eq_none hentry, h.missingTarget_eq_none,
    h.missingArgument_eq_none hentry, rfl, rfl⟩

end Function

end RegisterColoring
