import RegisterColoring.Proofs.Outlined

/-!
# Inputs as Copies, Renumbered

Replacing block inputs draws a staging register for each input that a jump supplies. Which
jumps get copies, which blocks are added and which faults are found depends on the function
alone, so two supplies give the same code up to the ids of the staging registers.

A renumbering that leaves the registers of the function as they are and takes the staging
registers of one supply to those of the other therefore takes the one result to the other.

## Main definitions

* `Block.mapRegs`, `Function.mapRegs`: Code with other registers.
* `Staging.renumber`: Staging registers with new ids.

## Theorems

* `lowerRun_renumber`, `lowerBlocks_renumber`: Lowering commutes with a renumbering.
* `Function.staging_renumber`: The staging registers of two supplies.
* `Function.withCopies_renumber`: The function without inputs, from two supplies.
* `Function.lowerInputs_cases`: Two supplies fail alike.
-/

namespace RegisterColoring

variable {M : Machine} {ρ : Renumbering}

def Block.mapRegs (φ : Register M → Register M) (b : Block M) : Block M :=
  { b with code := b.code.map (Instr.mapRegs φ) }

def Function.mapRegs (φ : Register M → Register M) (f : Function M) : Function M :=
  { f with blocks := f.blocks.map (Block.mapRegs φ) }

/-- Staging registers with new ids, for the same inputs. -/
def Staging.renumber (ρ : Renumbering) (staging : Staging M) : Staging M :=
  staging.map (Prod.map id ρ.vreg)

def Lowered.renumber (ρ : Renumbering) (x : Lowered M) : Lowered M :=
  ⟨x.uses.map (Operand.rename ρ.reg), x.copies.map (Instr.mapRegs ρ.reg),
    x.edges.map (Block.mapRegs ρ.reg)⟩

def LoweredRun.renumber (ρ : Renumbering) (x : LoweredRun M) : LoweredRun M :=
  ⟨x.run.map (Instr.mapRegs ρ.reg), x.copies.map (Instr.mapRegs ρ.reg),
    x.edges.map (Block.mapRegs ρ.reg)⟩

section Lowering

variable (f : Function M) (staging : Staging M)

theorem lookup_staging_renumber (a : Nat) :
    (staging.renumber ρ).lookup a = (staging.lookup a).map ρ.vreg :=
  lookup_map_key Function.injective_id ρ.vreg a staging

theorem stageCopies_renumber (inputs : List (VReg M)) (args : List (Operand M)) :
    stageCopies (staging.renumber ρ) inputs (args.map (Operand.rename ρ.reg)) =
      (stageCopies staging inputs args).map (Instr.mapRegs ρ.reg) := by
  unfold stageCopies
  rw [List.zip_map_right, List.filterMap_map, List.map_filterMap]
  refine List.filterMap_congr fun entry _ => ?_
  obtain ⟨v, arg⟩ := entry
  simp only [Function.comp_apply, Prod.map, id, lookup_staging_renumber, Option.map_map]
  cases staging.lookup v.id with
  | none => rfl
  | some w => simp [copyTo, Instr.mapRegs_eq, Renumbering.reg]

/-- Inputs that keep their ids are copied from the new staging registers. -/
theorem fetchCopies_renumber {inputs : List (VReg M)} (hfix : ∀ v ∈ inputs, ρ.vreg v = v) :
    fetchCopies (staging.renumber ρ) inputs =
      (fetchCopies staging inputs).map (Instr.mapRegs ρ.reg) := by
  unfold fetchCopies
  rw [List.map_filterMap]
  refine List.filterMap_congr fun v hv => ?_
  rw [lookup_staging_renumber]
  cases staging.lookup v.id with
  | none => rfl
  | some w =>
      simp [copyTo, Instr.mapRegs_eq, Renumbering.reg, Operand.ofVReg, Operand.rename, hfix v hv]

variable (contested : Nat → Bool)

theorem lowerBranch_renumber (next : Nat) (branch : Branch M) :
    lowerBranch f (staging.renumber ρ) contested next (branch.rename ρ.reg) =
      (lowerBranch f staging contested next branch).renumber ρ := by
  simp only [lowerBranch, Branch.rename, stageCopies_renumber]
  by_cases hin : (f.inputsOf branch.target).isEmpty = true
  · simp only [hin, if_true]
    rfl
  · -- The copies stand in a block of their own if the target is contested.
    by_cases hcontested : contested branch.target = true
    · simp only [hin, hcontested, if_true]
      simp [Lowered.renumber, Block.mapRegs, jumpTo, Instr.mapRegs_eq, Operand.rename]
    · simp only [hin, hcontested]
      rfl

theorem lowerBranches_renumber (next : Nat) (branches : List (Branch M)) :
    lowerBranches f (staging.renumber ρ) contested next (branches.map (Branch.rename ρ.reg)) =
      (lowerBranches f staging contested next branches).renumber ρ := by
  induction branches generalizing next with
  | nil => rfl
  | cons branch branches ih =>
      simp only [List.map_cons, lowerBranches, lowerBranch_renumber]
      simp only [Lowered.renumber, List.length_map, ih, List.map_append]

theorem lowerRun_renumber (next : Nat) (run : List (Instr M)) :
    lowerRun f (staging.renumber ρ) contested next (run.map (Instr.mapRegs ρ.reg)) =
      (lowerRun f staging contested next run).renumber ρ := by
  induction run generalizing next with
  | nil => rfl
  | cons i run ih =>
      have hbranches := Instr.branches_rename (i.uses_mapRegs ρ.reg)
      have hleading := Instr.leading_rename (i.uses_mapRegs ρ.reg)
      simp only [List.map_cons, lowerRun, hbranches, hleading, lowerBranches_renumber]
      simp only [Lowered.renumber, LoweredRun.renumber, List.length_map, ih, List.map_append,
        List.map_cons, Instr.mapRegs_eq]

end Lowering

/-- An instruction keeps its registers if each of them keeps its id. -/
theorem Instr.mapRegs_eq_self {φ : Register M → Register M} {i : Instr M}
    (h : ∀ r ∈ i.registers, φ r = r) : i.mapRegs φ = i := by
  have hrename : (Operand.rename id : Operand M → Operand M) = id := by
    funext u
    cases u <;> rfl
  have hid : i.mapRegs id = i := by rw [mapRegs_eq, hrename, List.map_id, List.map_id]
  exact (i.mapRegs_congr h).trans hid

namespace Block

variable (b : Block M)

theorem body_mapRegs (φ : Register M → Register M) :
    (b.mapRegs φ).body = b.body.map (Instr.mapRegs φ) := by
  rw [body, mapRegs, splitTrailing_map]
  rfl

theorem run_mapRegs (φ : Register M → Register M) :
    (b.mapRegs φ).run = b.run.map (Instr.mapRegs φ) := by
  rw [run, mapRegs, splitTrailing_map]
  rfl

theorem contests_mapRegs : (b.mapRegs ρ.reg).contests = b.contests := by
  funext target
  have hreferences : (fun i : Instr M => (i.mapRegs ρ.reg).references) = Instr.references :=
    funext fun i => (i.renumbered_mapRegs ρ).references
  simp only [contests, run_mapRegs, List.flatMap_map, hreferences]

end Block

/-- Lowering commutes with a renumbering that keeps the inputs. -/
theorem lowerBlocks_renumber (f : Function M) (staging : Staging M) (next : Nat)
    {blocks : List (Block M)} (hfix : ∀ b ∈ blocks, ∀ v ∈ b.inputs, ρ.vreg v = v) :
    lowerBlocks f (staging.renumber ρ) next (blocks.map (Block.mapRegs ρ.reg)) =
      ((lowerBlocks f staging next blocks).1.map (Block.mapRegs ρ.reg),
        (lowerBlocks f staging next blocks).2.map (Block.mapRegs ρ.reg)) := by
  induction blocks generalizing next with
  | nil => rfl
  | cons b blocks ih =>
      have hfetch : fetchCopies (staging.renumber ρ) (b.mapRegs ρ.reg).inputs =
          (fetchCopies staging b.inputs).map (Instr.mapRegs ρ.reg) :=
        fetchCopies_renumber staging (hfix b List.mem_cons_self)
      have hrest := fun next => ih next fun c hc => hfix c (List.mem_cons_of_mem _ hc)
      simp only [List.map_cons, lowerBlocks, hfetch, Block.body_mapRegs, Block.run_mapRegs,
        Block.contests_mapRegs, lowerRun_renumber]
      simp only [LoweredRun.renumber, List.length_map, hrest, List.map_append, Block.mapRegs]

namespace Function

variable {f : Function M} {s t : Supply}

theorem mapRegs_eq_self {φ : Register M → Register M} (h : ∀ r ∈ f.registers, φ r = r) :
    f.mapRegs φ = f := by
  have hblocks : f.blocks.map (Block.mapRegs φ) = f.blocks := by
    refine (List.map_congr_left fun b hb => ?_).trans (List.map_id _)
    have hcode : b.code.map (Instr.mapRegs φ) = b.code := by
      refine (List.map_congr_left fun i hi => ?_).trans (List.map_id _)
      refine Instr.mapRegs_eq_self fun r hr => h r (List.mem_flatMap.mpr ⟨b, hb, ?_⟩)
      exact List.mem_append_right _ (List.mem_flatMap.mpr ⟨i, hi, hr⟩)
    rw [Block.mapRegs, hcode]
    rfl
  rw [mapRegs, hblocks]

/-- The staging registers of supplies that hand out the same registers. -/
theorem staging_renumber (h : s.InStep ρ (f.staging s).length t) :
    f.staging t = (f.staging s).renumber ρ := by
  rw [length_staging] at h
  unfold staging Staging.renumber
  rw [List.map_map]
  -- An input has the same number in both, and gets the register with that number.
  refine List.map_congr_left fun entry hentry => ?_
  obtain ⟨v, k⟩ := entry
  have hk := (List.getElem?_eq_some_iff.mp (List.mem_zipIdx_iff_getElem?.mp hentry)).1
  simp only [Function.comp_apply, Prod.map, id, Renumbering.vreg, h k hk]

theorem withCopies_renumber (hfix : ∀ r ∈ f.registers, ρ.reg r = r) (staging : Staging M) :
    f.withCopies (staging.renumber ρ) = (f.withCopies staging).mapRegs ρ.reg := by
  have hinputs : ∀ b ∈ f.blocks, ∀ v ∈ b.inputs, ρ.vreg v = v := by
    intro b hb v hv
    have hmem : .virtual v ∈ f.registers :=
      List.mem_flatMap.mpr ⟨b, hb, List.mem_append_left _ (List.mem_map.mpr ⟨v, hv, rfl⟩)⟩
    exact Register.virtual.inj (hfix _ hmem)
  -- Lowering commutes with the renumbering, and this one leaves the function as it is.
  have hself : f.blocks.map (Block.mapRegs ρ.reg) = f.blocks :=
    congrArg Function.blocks (mapRegs_eq_self hfix)
  have hlower := lowerBlocks_renumber f staging f.size hinputs
  rw [hself] at hlower
  simp only [withCopies, hlower, mapRegs, List.map_append]

/-- Which inputs lack a staging register does not depend on the supply. -/
theorem missingArgument_staging (s t : Supply) :
    f.missingArgument? (f.staging t) = f.missingArgument? (f.staging s) := by
  -- A supply only decides which registers stand behind the keys.
  have hkeys : ∀ (supply : Supply) (a : Nat), ((f.staging supply).lookup a).isNone = true ↔
      a ∉ (distinctIds [] f.suppliedInputs).map VReg.id := by
    intro supply a
    have hfst : (f.staging supply).map Prod.fst = _ := staging_map_fst
    rw [← hfst, Option.isNone_iff_eq_none]
    refine ⟨fun hnone hmem => ?_, fun hmem => ?_⟩
    · rcases exists_lookup_of_mem hmem with ⟨w, hw⟩
      rw [hnone] at hw
      exact absurd hw (by simp)
    · by_contra hsome
      rcases Option.ne_none_iff_exists'.mp hsome with ⟨w, hw⟩
      exact hmem (List.mem_map.mpr ⟨(a, w), mem_of_lookup hw, rfl⟩)
  have hnone : ∀ v : VReg M, ((f.staging t).lookup v.id).isNone =
      ((f.staging s).lookup v.id).isNone := by
    intro v
    rw [Bool.eq_iff_iff, hkeys, hkeys]
  simp only [missingArgument?, hnone]

/-- Replacing inputs fails with both supplies or with none. -/
theorem lowerInputs_cases (f : Function M) (s t : Supply) :
    (∃ cause, f.lowerInputs s = .error cause ∧ f.lowerInputs t = .error cause) ∨
      (f.lowerInputs s = .ok (f.withCopies (f.staging s), s.afterRegs (f.staging s).length) ∧
        f.lowerInputs t = .ok (f.withCopies (f.staging t), t.afterRegs (f.staging t).length)) := by
  simp only [lowerInputs, f.missingArgument_staging s t]
  cases f.unsuppliedInput? with
  | some cause => exact Or.inl ⟨_, rfl, rfl⟩
  | none =>
      cases f.missingTarget?.or (f.missingArgument? (f.staging s)) with
      | some cause => exact Or.inl ⟨_, rfl, rfl⟩
      | none => exact Or.inr ⟨rfl, rfl⟩

end Function

end RegisterColoring
