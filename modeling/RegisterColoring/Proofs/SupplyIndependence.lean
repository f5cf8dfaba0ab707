import RegisterColoring.Proofs.CompiledRuns
import RegisterColoring.Proofs.RenumberedInputs

/-!
# The Supply Does Not Matter

All functions of a program draw their fresh names from one supply, so what a compilation
finds in it depends on what was compiled before. The result does not. Two compilations of a
function, with supplies above its ids, fail with the same error, or both follow one outline:
the same number of rounds, the same registers spilled in the same order, and the same code.
Registers and slots that a compilation draws are named by their numbers in the outline and
counted from where its supply stands.

The two runs go in lockstep. At every point the registers of the second are those of the
first renumbered, by the renumbering that moves everything from the one counter on to the
other. A round then ends the same way in both, and what a spill draws is in step again.

## Main definitions

* `Origin`: A register of the function, or one that was drawn, by its number.
* `Outline`: What a compilation does, with drawn names by their numbers.
* `Outline.Describes`: A compilation follows an outline.
* `Function.drawn`: How many registers a compilation draws.
* `Workspace.Paired`: Two allocations in lockstep.

## Theorems

* `Workspace.Paired.spill`: A spill keeps allocations in lockstep.
* `Workspace.Paired.rounds`: Allocations in lockstep end alike.
* `Function.exists_outline`: Compilations with different supplies follow one outline.
-/

namespace RegisterColoring

variable {M : Machine} {ρ : Renumbering}

/-- A register by its id, or the one with number `k` of those that were drawn. -/
inductive Origin where
  | own (id : Nat)
  | drawn (k : Nat)
deriving DecidableEq

/-- The id, if drawn registers are counted from `start`. -/
def Origin.id (start : Nat) : Origin → Nat
  | own id => id
  | drawn k => start + k

/-- Where an id comes from, if drawn registers are counted from `start`. -/
def Origin.ofId (start id : Nat) : Origin :=
  if id < start then own id else drawn (id - start)

/-- The slots with numbers from 0 on, counted from `start`. -/
def slotsFrom (start : Nat) (sizes : List Nat) : List Slot :=
  sizes.zipIdx.map fun (size, k) => slotAt start k size

/-- What a compilation does, with drawn names by their numbers. -/
structure Outline (M : Machine) where
  rounds : Nat
  spilled : List Origin
  /-- The sizes of the slots. -/
  sizes : List Nat
  blocks : List (List (Piece M))

namespace Outline

def summary (o : Outline M) (supply : Supply) : Summary :=
  ⟨o.rounds, o.spilled.map (Origin.id supply.registers), slotsFrom supply.slots o.sizes⟩

def blocksFrom (o : Outline M) (start : Nat) : List (Block M) :=
  o.blocks.map (Piece.block (Piece.fill start))

/-- A compilation succeeds and follows the outline. Registers that are not drawn have ids
    below the counter, and instructions that are not added are those of the function
    without inputs, up to their registers. -/
structure Describes (o : Outline M) (f : Function M) (options : Options) (supply : Supply) :
    Prop where
  result : (f.compile options supply).result = .ok (o.summary supply)
  func : (f.compile options supply).workspace.func = ⟨f.name, o.blocksFrom supply.slots⟩
  own : ∀ id, .own id ∈ o.spilled → id < supply.registers
  found : ∃ lowered rest, f.lowerIf options supply = .ok (lowered, rest) ∧
    o.blocks.map Piece.shapes = lowered.blocks.map fun b => b.code.map Instr.shape

end Outline

/-- How many registers replacing the inputs draws. -/
def Function.staged (f : Function M) (options : Options) (supply : Supply) : Nat :=
  if options.lowerInputs then (f.staging supply).length else 0

/-- How many registers a compilation draws: the staging registers, and one for each reload
    that it adds. -/
def Function.drawn (f : Function M) (options : Options) (supply : Supply) : Nat :=
  match f.checkIf options with
  | .error _ => 0
  | .ok () =>
      match f.lowerIf options supply with
      | .error _ => 0
      | .ok (lowered, rest) =>
          f.staged options supply +
            ((lowered.allocate rest).workspace.func.reloadCount - lowered.reloadCount)

section Counter

/-- The counter moves on by one for each reload that the rounds add. -/
theorem registers_allocateRounds (w : Workspace M) (excluded : List Nat) (done : Summary)
    (budget : Nat) {m : Nat} {out : Outcome M} (hout : allocateRounds w excluded done budget = out)
    (hm : w.supply.registers % Supply.capacity = m % Supply.capacity) :
    out.workspace.supply.registers % Supply.capacity =
      (m + (out.workspace.func.reloadCount - w.func.reloadCount)) % Supply.capacity := by
  induction budget using Nat.strongRecOn generalizing w excluded done m with
  | _ budget ih =>
      rcases allocateRounds_step w excluded done budget with ⟨cause, hstep⟩ |
        ⟨l, colors, _, _, hstep⟩ | ⟨l, v, x, rest, _, _, hspill, hbudget, hstep⟩
      · rw [hstep] at hout
        subst hout
        rw [Nat.sub_self]
        exact hm
      · rw [hstep] at hout
        subst hout
        simp only [Function.reloadCount_place, Nat.sub_self]
        exact hm
      · rw [hstep] at hout
        have hle := reloadCount_le_allocateRounds ⟨x.func, x.supply⟩ (v.id :: (x.reloads ++ excluded))
          ⟨done.rounds + 1, done.spilled ++ [v.id], done.slots ++ [x.slot]⟩ rest
        have hrest := ih rest (by omega) _ _ _ hout (Function.registers_spill hspill hm)
        have hcount := Function.reloadCount_spill hspill
        rw [hout] at hle
        rw [hrest]
        simp only at hle ⊢
        congr 1
        omega

theorem Function.registers_allocate (f : Function M) (supply : Supply) {m : Nat}
    (hm : supply.registers % Supply.capacity = m % Supply.capacity) :
    (f.allocate supply).workspace.supply.registers % Supply.capacity =
      (m + ((f.allocate supply).workspace.func.reloadCount - f.reloadCount)) %
        Supply.capacity := by
  unfold allocate
  split
  · cases f.remainingInput? with
    | some cause =>
        simp only [Nat.sub_self]
        exact hm
    | none => exact registers_allocateRounds ⟨f, supply⟩ _ _ _ rfl hm
  · simp only [Nat.sub_self]
    exact hm

/-- What replacing the inputs leaves of the supply. -/
theorem Function.supply_lowerIf {f g : Function M} {options : Options} {supply rest : Supply}
    (h : f.lowerIf options supply = .ok (g, rest)) :
    rest.registers % Supply.capacity =
      (supply.registers + f.staged options supply) % Supply.capacity ∧ rest.slots = supply.slots := by
  unfold lowerIf at h
  unfold staged
  split at h
  · rename_i hlower
    rw [if_pos hlower]
    rcases lowerInputs_eq_ok_iff.mp h with ⟨_, _, _, _, rfl⟩
    exact ⟨Nat.mod_mod _ _, rfl⟩
  · rename_i hlower
    rw [if_neg hlower]
    obtain ⟨rfl, rfl⟩ := Prod.mk.inj (Except.ok.inj h)
    exact ⟨rfl, rfl⟩

/-- A compilation moves the counter on by the number of registers that it draws. -/
theorem Function.registers_compile (f : Function M) (options : Options) (supply : Supply) :
    (f.compile options supply).workspace.supply.registers % Supply.capacity =
      (supply.registers + f.drawn options supply) % Supply.capacity := by
  unfold compile drawn
  cases f.checkIf options with
  | error cause => rfl
  | ok u =>
      cases hlower : f.lowerIf options supply with
      | error cause => rfl
      | ok found =>
          obtain ⟨g, rest⟩ := found
          have hregs := g.registers_allocate rest (supply_lowerIf hlower).1
          rw [Nat.add_assoc] at hregs
          simp only
          cases (g.allocate rest).result <;> exact hregs

end Counter

/-- Move everything from `a` on to `b`. -/
def Renumbering.shift (a b : Nat) (hab : a ≤ b) : Renumbering where
  num x := if x < a then x else x - a + b
  mono {x y} hxy := by
    split <;> split <;> omega

theorem Renumbering.shift_of_lt {a b x : Nat} (hab : a ≤ b) (hx : x < a) :
    (shift a b hab).num x = x :=
  if_pos hx

theorem Renumbering.shift_add {a b : Nat} (hab : a ≤ b) (j : Nat) :
    (shift a b hab).num (a + j) = b + j := by
  simp only [shift]
  rw [if_neg (by omega)]
  omega

namespace Origin

theorem id_ofId (start id : Nat) : (ofId start id).id start = id := by
  unfold ofId
  split
  · rfl
  · simp only [Origin.id]
    omega

theorem id_ofId_shift {a b : Nat} (hab : a ≤ b) (id : Nat) :
    (ofId a id).id b = (Renumbering.shift a b hab).num id := by
  by_cases hid : id < a
  · simp only [ofId, Renumbering.shift, hid, if_true, Origin.id]
  · simp only [ofId, Renumbering.shift, hid, if_false, Origin.id]
    omega

theorem lt_of_own {start id : Nat} {ids : List Nat} (h : own id ∈ ids.map (ofId start)) :
    id < start := by
  rcases List.mem_map.mp h with ⟨x, _, hx⟩
  unfold ofId at hx
  split at hx
  · rename_i hlt
    exact own.inj hx ▸ hlt
  · exact absurd hx (by simp)

end Origin

/-- Two allocations of a function fail with the same error, or both fill in one outline. Their
    spilled registers are renumbered, and their slots are counted from `s` and from `t`. -/
def Outcome.Alike (ρ : Renumbering) (s t : Nat) (name : String)
    (shapes : List (List (Op M × Nat × List (Option (Operand M))))) (out out' : Outcome M) : Prop :=
  (∃ cause, out.result = .error cause ∧ out'.result = .error cause) ∨
    ∃ (count : Nat) (spilled sizes : List Nat) (made : List (List (Piece M))),
      out.result = .ok ⟨count, spilled, slotsFrom s sizes⟩ ∧
      out'.result = .ok ⟨count, spilled.map ρ.num, slotsFrom t sizes⟩ ∧
      out.workspace.func = ⟨name, made.map (Piece.block (Piece.fill s))⟩ ∧
      out'.workspace.func = ⟨name, made.map (Piece.block (Piece.fill t))⟩ ∧
      made.map Piece.shapes = shapes

theorem slotsFrom_append (start size : Nat) (sizes : List Nat) :
    slotsFrom start (sizes ++ [size]) =
      slotsFrom start sizes ++ [slotAt start sizes.length size] := by
  simp [slotsFrom, List.zipIdx_append]

namespace Workspace

/-- Two allocations in lockstep. Their functions fill the same pieces, both have drawn `k`
    slots, and the registers they draw next are numbered on from `m` and from `m'`. -/
structure Paired (ρ : Renumbering) (s t k m m' : Nat) (outline : List (List (Piece M)))
    (w w' : Workspace M) : Prop where
  code : w.func.Outlined ρ s t outline w'.func
  registers : w.supply.registers % Supply.capacity = m % Supply.capacity
  registers' : w'.supply.registers % Supply.capacity = m' % Supply.capacity
  slots : w.supply.slots % Supply.capacity = (s + k) % Supply.capacity
  slots' : w'.supply.slots % Supply.capacity = (t + k) % Supply.capacity
  shift : ∀ j, ρ.num (m + j) = m' + j

namespace Paired

variable {s t k m m' : Nat} {outline : List (List (Piece M))} {w w' : Workspace M}

theorem inStep (h : Paired ρ s t k m m' outline w w') {n : Nat} (hm : m + n ≤ Supply.capacity)
    (hm' : m' + n ≤ Supply.capacity) : w.supply.InStep ρ n w'.supply := by
  intro j hj
  rw [Supply.regId_eq_add h.registers (by omega), Supply.regId_eq_add h.registers' (by omega),
    h.shift]

/-- A spill keeps allocations in lockstep. -/
theorem spill (h : Paired ρ s t k m m' outline w w') {v : VReg M} {x x' : Spill M}
    (hx : w.func.spill v w.supply = .ok x) (hx' : w'.func.spill (ρ.vreg v) w'.supply = .ok x')
    (hm : m + x.reloads.length ≤ Supply.capacity)
    (hm' : m' + x'.reloads.length ≤ Supply.capacity) :
    x.slot = slotAt s k (Machine.spillSize v.cls) ∧
      x'.slot = slotAt t k (Machine.spillSize v.cls) ∧ x'.reloads = x.reloads.map ρ.num ∧
      ∃ made, Paired ρ s t (k + 1) (m + x.reloads.length) (m' + x'.reloads.length) made
          ⟨x.func, x.supply⟩ ⟨x'.func, x'.supply⟩ ∧
        made.map Piece.shapes = outline.map Piece.shapes := by
  -- How much is drawn depends on the reads alone, so no supply has to be in step for it.
  have hlength : x'.reloads.length = x.reloads.length := by
    rw [Function.length_reloads _ hx, Function.length_reloads _ hx', h.code.countP_readsV]
  have hstep : w.supply.InStep ρ (w.func.instructions.countP (·.readsV v)) w'.supply := by
    rw [← Function.length_reloads _ hx]
    exact h.inStep hm (by omega)
  rcases h.code.spill hstep h.slots h.slots' hx hx' with
    ⟨hslot, hslot', hreloads, made, hcode, hshapes⟩
  refine ⟨hslot, hslot', hreloads, made, ⟨hcode, ?_, ?_, ?_, ?_, fun j => ?_⟩, hshapes⟩
  · exact Function.registers_spill hx h.registers
  · exact Function.registers_spill hx' h.registers'
  · exact Function.slots_spill hx h.slots
  · exact Function.slots_spill hx' h.slots'
  · rw [Nat.add_assoc, h.shift, hlength, Nat.add_assoc]

/-- Allocations in lockstep end alike. -/
theorem rounds {sizes : List Nat} (h : Paired ρ s t sizes.length m m' outline w w')
    (excluded : List Nat) (count : Nat) (spilled : List Nat) (budget : Nat) {out out' : Outcome M}
    (hout : allocateRounds w excluded ⟨count, spilled, slotsFrom s sizes⟩ budget = out)
    (hout' : allocateRounds w' (excluded.map ρ.num)
      ⟨count, spilled.map ρ.num, slotsFrom t sizes⟩ budget = out')
    (hm : m + (out.workspace.func.reloadCount - w.func.reloadCount) ≤ Supply.capacity)
    (hm' : m' + (out'.workspace.func.reloadCount - w'.func.reloadCount) ≤ Supply.capacity) :
    Outcome.Alike ρ s t w.func.name (outline.map Piece.shapes) out out' := by
  -- Every round that spills leaves a smaller budget.
  induction budget using Nat.strongRecOn
    generalizing w w' m m' outline sizes excluded count spilled with
  | _ budget ih =>
      rcases h.code.renumbered.round excluded with ⟨cause, hround, hround'⟩ |
        ⟨l, colors, hl, hcolors, hround, hround'⟩ | ⟨v, hround, hround'⟩
      · rw [allocateRounds, hround] at hout
        rw [allocateRounds, hround'] at hout'
        subst hout hout'
        exact Or.inl ⟨cause, rfl, rfl⟩
      · -- All registers are placed, and what is left of the difference are the slots.
        rw [allocateRounds, hround] at hout
        rw [allocateRounds, hround'] at hout'
        subst hout hout'
        rcases h.code.place hl hcolors with ⟨made, hshapes, hleft, hright⟩
        refine Or.inr ⟨count + 1, spilled, sizes, made, rfl, rfl, ?_, ?_, hshapes⟩
        · rw [← hleft]
          rfl
        · rw [← hright, ← h.code.name]
          rfl
      · rcases Function.exists_spill h.code.inputs v w.supply with ⟨x, hx⟩
        rcases Function.exists_spill h.code.inputs' (ρ.vreg v) w'.supply with ⟨x', hx'⟩
        rw [allocateRounds, hround] at hout
        rw [allocateRounds, hround'] at hout'
        -- Both spill the same register, if the budget allows another spill.
        cases budget with
        | zero =>
            subst hout hout'
            exact Or.inl ⟨.exhausted w.func.name, rfl, by rw [h.code.name]⟩
        | succ budget =>
            simp only [hx] at hout
            simp only [hx'] at hout'
            -- What the rest draws comes after the reloads of this spill.
            have hcount := Function.reloadCount_spill hx
            have hcount' := Function.reloadCount_spill hx'
            have hle : x.func.reloadCount ≤ out.workspace.func.reloadCount := by
              rw [← hout]
              exact reloadCount_le_allocateRounds ⟨x.func, x.supply⟩ _ _ _
            have hle' : x'.func.reloadCount ≤ out'.workspace.func.reloadCount := by
              rw [← hout']
              exact reloadCount_le_allocateRounds ⟨x'.func, x'.supply⟩ _ _ _
            rcases h.spill hx hx' (by omega) (by omega) with
              ⟨hslot, hslot', hreloads, made, hpaired, hshapes⟩
            have hname : x.func.name = w.func.name := by rw [(Function.spill_eq_ok hx).2.2.1]
            have hlength : (sizes ++ [Machine.spillSize v.cls]).length = sizes.length + 1 := by simp
            rw [← hlength] at hpaired
            rw [hslot, ← slotsFrom_append] at hout
            rw [hslot', ← slotsFrom_append, hreloads, ← List.map_append] at hout'
            have hrest := ih budget (by omega) hpaired (v.id :: (x.reloads ++ excluded)) (count + 1)
              (spilled ++ [v.id]) hout (by rw [List.map_append]; exact hout')
              (by simp only; omega) (by simp only; omega)
            rw [hname, hshapes] at hrest
            exact hrest

/-- Allocations that start in lockstep end alike. -/
theorem allocate {f g : Function M} {supply supply' : Supply}
    (h : Paired ρ s t 0 m m' outline ⟨f, supply⟩ ⟨g, supply'⟩)
    (hm : m + ((f.allocate supply).workspace.func.reloadCount - f.reloadCount) ≤ Supply.capacity)
    (hm' : m' + ((g.allocate supply').workspace.func.reloadCount - g.reloadCount) ≤
      Supply.capacity) :
    Outcome.Alike ρ s t f.name (outline.map Piece.shapes) (f.allocate supply)
      (g.allocate supply') := by
  have hregisters := h.code.renumbered.registers
  have hsame : g.hasVirtual = f.hasVirtual := by
    simp only [Function.hasVirtual, hregisters, List.any_map, Function.comp_def, ρ.isVirtual_reg]
  unfold Function.allocate at hm hm' ⊢
  rw [hsame] at hm' ⊢
  by_cases hvirtual : f.hasVirtual = true
  · have hbudget : g.vregIds.length = f.vregIds.length := by
      rw [h.code.renumbered.vregIds, List.length_map]
    have hstart : Paired ρ s t ([] : List Nat).length m m' outline ⟨f, supply⟩ ⟨g, supply'⟩ := h
    simp only [hvirtual, if_true, Function.remainingInput_eq_none h.code.inputs,
      Function.remainingInput_eq_none h.code.inputs', hbudget] at hm hm' ⊢
    exact hstart.rounds [] 0 [] f.vregIds.length rfl rfl hm hm'
  · -- Without virtual registers there is nothing to renumber.
    simp only [hvirtual]
    refine Or.inr ⟨0, [], [], outline, rfl, rfl, ?_, ?_, rfl⟩
    · rw [← h.code.left]
      rfl
    · have hfill : g.blocks = outline.map (Piece.block (Piece.fill t)) := by
        rw [h.code.right]
        refine List.map_congr_left fun pieces hpieces => ?_
        refine congrArg (Block.mk []) (List.map_congr_left fun p hp => ?_)
        refine Instr.mapRegs_eq_self fun r hr => ?_
        rw [p.registers_fill t s] at hr
        have hr := h.code.mem_registers hpieces hp hr
        cases r with
        | physical p => rfl
        | virtual v => exact absurd (List.any_eq_true.mpr ⟨_, hr, rfl⟩) hvirtual
      rw [← hfill, ← h.code.name]
      rfl

end Paired

end Workspace

namespace Function

variable {f : Function M} {options : Options} {s t : Supply}

/-- An input that remains ends an allocation. -/
theorem allocate_of_remainingInput {cause : Unsupported} (h : f.remainingInput? = some cause)
    (supply : Supply) : (f.allocate supply).result = .error (.unsupported cause) := by
  have hvirtual : f.hasVirtual = true := by
    rcases List.exists_of_findSome?_eq_some h with ⟨entry, hentry, hinput⟩
    rcases Option.map_eq_some_iff.mp hinput with ⟨v, hv, _⟩
    refine List.any_eq_true.mpr ⟨.virtual v, ?_, rfl⟩
    refine List.mem_flatMap.mpr ⟨entry.1, List.fst_mem_of_mem_zipIdx hentry, ?_⟩
    exact List.mem_append_left _ (List.mem_map.mpr ⟨v, List.mem_of_head? hv, rfl⟩)
  rw [allocate, if_pos hvirtual, h]

theorem remainingInput_mapRegs (φ : Register M → Register M) :
    (f.mapRegs φ).remainingInput? = f.remainingInput? := by
  simp only [remainingInput?, mapRegs, List.zipIdx_map, List.findSome?_map]
  rfl

/-- Replacing the inputs fails with both supplies, or gives the same function up to the ids of
    the staging registers. -/
theorem lowerIf_cases (hfix : ∀ r ∈ f.registers, ρ.reg r = r) (options : Options) (s t : Supply) :
    (∃ cause, f.lowerIf options s = .error cause ∧ f.lowerIf options t = .error cause) ∨
      ∃ g g' rest rest', f.lowerIf options s = .ok (g, rest) ∧
        f.lowerIf options t = .ok (g', rest') ∧ g.name = f.name ∧
        (s.InStep ρ (f.staged options s) t → g' = g.mapRegs ρ.reg) := by
  unfold lowerIf staged
  by_cases hlower : options.lowerInputs = true
  · simp only [hlower, if_true]
    rcases f.lowerInputs_cases s t with herror | ⟨hs, ht⟩
    · exact Or.inl herror
    · refine Or.inr ⟨_, _, _, _, hs, ht, rfl, fun hstep => ?_⟩
      rw [staging_renumber hstep, withCopies_renumber hfix]
  · simp only [hlower]
    exact Or.inr ⟨f, f, s, t, rfl, rfl, rfl, fun _ => (mapRegs_eq_self hfix).symm⟩

/-- A compilation that gets to the allocation ends as that does. -/
theorem compile_of_lowerIf {g : Function M} {rest : Supply} (hcheck : f.checkIf options = .ok ())
    (hlower : f.lowerIf options s = .ok (g, rest)) :
    (f.compile options s).result = (g.allocate rest).result ∧
      ∀ summary, (g.allocate rest).result = .ok summary →
        (f.compile options s).workspace = (g.allocate rest).workspace := by
  simp only [compile, hcheck, hlower]
  cases hresult : (g.allocate rest).result with
  | error cause => exact ⟨rfl, fun _ h => absurd h (by simp)⟩
  | ok summary => exact ⟨rfl, fun _ _ => rfl⟩

/-- A function without inputs and its renumbering fill the same pieces. -/
theorem outlined_mapRegs (hin : ∀ b ∈ f.blocks, b.inputs = []) (ρ : Renumbering) (s t : Nat) :
    f.Outlined ρ s t (f.blocks.map fun b => b.code.map .own) (f.mapRegs ρ.reg) where
  name := rfl
  left := by
    rw [List.map_map]
    refine ((List.map_congr_left fun b hb => ?_).trans (List.map_id _)).symm
    simp only [Function.comp_apply, Piece.block, List.map_map]
    rw [← hin b hb]
    exact congrArg (Block.mk b.inputs) (List.map_id _)
  right := by
    simp only [mapRegs, List.map_map]
    refine List.map_congr_left fun b hb => ?_
    simp only [Function.comp_apply, Piece.block, List.map_map]
    rw [← hin b hb]
    rfl

theorem staged_eq (f : Function M) (options : Options) (s t : Supply) :
    f.staged options t = f.staged options s := by
  rw [staged, staged, length_staging, length_staging]

theorem shapes_mapRegs (φ : Register M → Register M) :
    ((f.mapRegs φ).blocks.map fun b => b.code.map Instr.shape) =
      f.blocks.map fun b => b.code.map Instr.shape := by
  simp only [mapRegs, List.map_map]
  refine List.map_congr_left fun b _ => ?_
  simp only [Function.comp_apply, Block.mapRegs, List.map_map]
  exact List.map_congr_left fun i _ => i.shape_mapRegs φ

/-- Compilations whose allocations end alike follow one outline. -/
theorem exists_outline_of_alike {g g' : Function M} {rest rest' : Supply}
    (hle : s.registers ≤ t.registers) (hcheck : f.checkIf options = .ok ())
    (hlower : f.lowerIf options s = .ok (g, rest))
    (hlower' : f.lowerIf options t = .ok (g', rest'))
    (hshapes : (g'.blocks.map fun b => b.code.map Instr.shape) =
      g.blocks.map fun b => b.code.map Instr.shape)
    (h : Outcome.Alike (Renumbering.shift s.registers t.registers hle) s.slots t.slots f.name
      (g.blocks.map fun b => b.code.map Instr.shape) (g.allocate rest) (g'.allocate rest')) :
    (∃ cause, (f.compile options s).result = .error cause ∧
        (f.compile options t).result = .error cause) ∨
      ∃ o : Outline M, o.Describes f options s ∧ o.Describes f options t := by
  have hresult := compile_of_lowerIf hcheck hlower
  have hresult' := compile_of_lowerIf hcheck hlower'
  rcases h with ⟨cause, herror, herror'⟩ |
    ⟨count, spilled, sizes, made, hok, hok', hfunc, hfunc', hmade⟩
  · exact Or.inl ⟨cause, by rw [hresult.1, herror], by rw [hresult'.1, herror']⟩
  · have hown : ∀ id, .own id ∈ spilled.map (Origin.ofId s.registers) → id < s.registers :=
      fun _ => Origin.lt_of_own
    have hleft : (spilled.map (Origin.ofId s.registers)).map (Origin.id s.registers) = spilled := by
      rw [List.map_map]
      exact (List.map_congr_left fun id _ => Origin.id_ofId _ id).trans (List.map_id _)
    have hright : (spilled.map (Origin.ofId s.registers)).map (Origin.id t.registers) =
        spilled.map (Renumbering.shift s.registers t.registers hle).num := by
      rw [List.map_map]
      exact List.map_congr_left fun id _ => Origin.id_ofId_shift hle id
    refine Or.inr ⟨⟨count, spilled.map (Origin.ofId s.registers), sizes, made⟩,
      ⟨?_, ?_, hown, g, rest, hlower, hmade⟩,
      ⟨?_, ?_, fun id hid => ?_, g', rest', hlower', hmade.trans hshapes.symm⟩⟩
    · rw [hresult.1, hok, Outline.summary, hleft]
    · rw [hresult.2 _ hok, hfunc]
      rfl
    · rw [hresult'.1, hok', Outline.summary, hright]
    · rw [hresult'.2 _ hok', hfunc']
      rfl
    · have hlt := hown id hid
      omega

/-- Two compilations go in lockstep from where one supply is ahead of the other. -/
theorem exists_outline_of_le (hle : s.registers ≤ t.registers) (hids : f.IdsBelow s.registers)
    (hs : s.registers + f.drawn options s ≤ Supply.capacity)
    (ht : t.registers + f.drawn options t ≤ Supply.capacity) :
    (∃ cause, (f.compile options s).result = .error cause ∧
        (f.compile options t).result = .error cause) ∨
      ∃ o : Outline M, o.Describes f options s ∧ o.Describes f options t := by
  have hfix : ∀ r ∈ f.registers, (Renumbering.shift s.registers t.registers hle).reg r = r := by
    intro r hr
    cases r with
    | physical p => rfl
    | virtual v => simp only [Renumbering.reg, Renumbering.vreg, Renumbering.shift_of_lt hle (hids v hr)]
  cases hcheck : f.checkIf options with
  | error cause =>
      exact Or.inl ⟨cause, by simp only [compile, hcheck], by simp only [compile, hcheck]⟩
  | ok u =>
      rcases lowerIf_cases hfix options s t with ⟨cause, herror, herror'⟩ |
        ⟨g, g', rest, rest', hlower, hlower', hname, hrenumber⟩
      · exact Or.inl ⟨cause, by simp only [compile, hcheck, herror],
          by simp only [compile, hcheck, herror']⟩
      · have hstaged := f.staged_eq options s t
        have hsupply := supply_lowerIf hlower
        have hsupply' := supply_lowerIf hlower'
        simp only [drawn, hcheck, hlower] at hs
        simp only [drawn, hcheck, hlower'] at ht
        -- The staging registers are in step, so the functions differ in their ids only.
        obtain rfl := hrenumber fun j hj => by
          rw [Supply.regId_eq_add rfl (by omega), Supply.regId_eq_add rfl (by omega),
            Renumbering.shift_add]
        refine exists_outline_of_alike hle hcheck hlower hlower' (shapes_mapRegs _) ?_
        -- Inputs can only remain if they were not to be replaced.
        cases hinput : g.remainingInput? with
        | some cause =>
            refine Or.inl ⟨.unsupported cause, allocate_of_remainingInput hinput _, ?_⟩
            exact allocate_of_remainingInput (by rw [remainingInput_mapRegs, hinput]) _
        | none =>
            have hpaired : Workspace.Paired (Renumbering.shift s.registers t.registers hle)
                s.slots t.slots 0 (s.registers + f.staged options s)
                (t.registers + f.staged options t) (g.blocks.map fun b => b.code.map .own)
                ⟨g, rest⟩ ⟨g.mapRegs _, rest'⟩ :=
              ⟨outlined_mapRegs (inputs_of_remainingInput hinput) _ _ _, hsupply.1, hsupply'.1,
                by rw [hsupply.2, Nat.add_zero], by rw [hsupply'.2, Nat.add_zero], fun j => by
                  rw [Nat.add_assoc, Renumbering.shift_add, hstaged, Nat.add_assoc]⟩
            have hfound : ((g.blocks.map fun b => b.code.map Piece.own).map Piece.shapes) =
                g.blocks.map fun b => b.code.map Instr.shape := by
              rw [List.map_map]
              exact List.map_congr_left fun b _ => Piece.shapes_own b.code
            have halike := hpaired.allocate (by omega) (by omega)
            rw [hname, hfound] at halike
            exact halike

/-- The result of a compilation does not depend on the supply: with supplies that stand above
    the ids of the function and do not wrap around, two compilations fail with the same error
    or follow one outline. -/
theorem exists_outline (hs : f.IdsBelow s.registers) (ht : f.IdsBelow t.registers)
    (hroom : s.registers + f.drawn options s ≤ Supply.capacity)
    (hroom' : t.registers + f.drawn options t ≤ Supply.capacity) :
    (∃ cause, (f.compile options s).result = .error cause ∧
        (f.compile options t).result = .error cause) ∨
      ∃ o : Outline M, o.Describes f options s ∧ o.Describes f options t := by
  -- A renumbering moves ids up, so the lower counter comes first.
  rcases Nat.le_total s.registers t.registers with hle | hle
  · exact exists_outline_of_le hle hs hroom hroom'
  · rcases exists_outline_of_le hle ht hroom' hroom with ⟨cause, herror, herror'⟩ | ⟨o, ho, ho'⟩
    · exact Or.inl ⟨cause, herror', herror⟩
    · exact Or.inr ⟨o, ho', ho⟩

theorem sumInTwo_outline :
    (sumInTwo.compile {} ⟨7, 0⟩).result = .ok ⟨4, [7, 4, 8], [⟨0, 8⟩, ⟨1, 8⟩, ⟨2, 8⟩]⟩ ∧
      (sumInTwo.compile {} ⟨20, 3⟩).result = .ok ⟨4, [20, 4, 21], [⟨3, 8⟩, ⟨4, 8⟩, ⟨5, 8⟩]⟩ ∧
      ∃ o : Outline flat, o.Describes sumInTwo {} ⟨7, 0⟩ ∧ o.Describes sumInTwo {} ⟨20, 3⟩ := by
  have hleft : (sumInTwo.compile {} ⟨7, 0⟩).result =
      .ok ⟨4, [7, 4, 8], [⟨0, 8⟩, ⟨1, 8⟩, ⟨2, 8⟩]⟩ := by decide +kernel
  have hright : (sumInTwo.compile {} ⟨20, 3⟩).result =
      .ok ⟨4, [20, 4, 21], [⟨3, 8⟩, ⟨4, 8⟩, ⟨5, 8⟩]⟩ := by decide +kernel
  refine ⟨hleft, hright, (exists_outline (by decide) (by decide) (by decide +kernel)
    (by decide +kernel)).resolve_left fun herror => ?_⟩
  rcases herror with ⟨cause, herror, _⟩
  rw [hleft] at herror
  exact absurd herror (by simp)

end Function

end RegisterColoring
