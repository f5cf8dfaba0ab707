import RegisterColoring.Proofs.Renamed
import RegisterColoring.Proofs.Spilled

/-!
# Running Code After a Spill

A spilled register lives on in its frame slot: after every write the slot holds what
the register holds, and reads fetch it from there. The reloads for terminators come
before all of them, so they are run even if control leaves before the reading one. That
is safe because the register has been written on every walk to the block or in the
block itself.

`Store.Covers` carries this through straight-line code. A store covers code if it
holds all virtual registers that the code needs; running an instruction leaves
a store that covers the rest.

## Main definitions

* `Store.Covers`: All that the code needs has been written.
* `Kept`: What the stores before and after a spill have in common.
* `Function.Workable`: What allocation keeps true of a function.

## Theorems

* `Function.Ready.covers`: At its start, a block finds what it needs.
* `SpillsTo.pass`: Straight-line code after a spill keeps up.
* `Function.Workable.spill`: A spill leaves a function workable.
* `Function.Workable.returns_spill`: A spill keeps what a function returns.
-/

namespace RegisterColoring

variable {M : Machine}

/-- The store holds every virtual register that the code needs. -/
def Store.Covers (s : Store M) (code : List (Instr M)) : Prop :=
  ∀ v : VReg M, Needs (.virtual v) code → (s.regs (.virtual v)).isSome

namespace Store.Covers

variable {f : Function M} {s t : Store M}

theorem reads {i : Instr M} {code : List (Instr M)} (h : s.Covers (i :: code)) {v : VReg M}
    (hv : .virtual v ∈ i.reads) : (s.regs (.virtual v)).isSome :=
  h v (needs_cons.mpr (Or.inl hv))

/-- Running an instruction leaves a store that covers the rest. -/
theorem next {i : Instr M} {code : List (Instr M)} (h : s.Covers (i :: code)) (hreg : i.Regular)
    (hterm : i.isTerminator = false) (heff : i.effect? f s = some (.next t)) : t.Covers code := by
  intro v hv
  have hregs := Function.effect_next_regs hreg hterm heff
  by_cases hdef : .virtual v ∈ i.defs
  · exact hregs.1 _ hdef
  · rw [hregs.2 _ hdef]
    exact h v (needs_cons.mpr (Or.inr ⟨hdef, hv⟩))

theorem pass {code rest : List (Instr M)} (h : s.Covers (code ++ rest))
    (hreg : ∀ i ∈ code, i.Regular) (hterm : ∀ i ∈ code, i.isTerminator = false)
    (hpass : f.pass? s code = some t) : t.Covers rest := by
  induction code generalizing s with
  | nil =>
      simp only [Function.pass?, Option.some.injEq] at hpass
      exact hpass ▸ h
  | cons i code ih =>
      rcases Function.pass_cons_eq_some.mp hpass with ⟨u, heff, hrest⟩
      exact ih (h.next (hreg i (by simp)) (hterm i (by simp)) heff)
        (fun j hj => hreg j (by simp [hj])) (fun j hj => hterm j (by simp [hj])) hrest

end Store.Covers

/-- At its start, a block finds what it needs. -/
theorem Function.Ready.covers {f : Function M} (hstrict : ∀ v, f.Strict (.virtual v)) {b : Nat}
    {block : Block M} (hb : f.blocks[b]? = some block) {s : Store M} (hready : f.Ready b s) :
    s.Covers block.code := by
  intro v hneeds
  refine hready _ ?_
  by_cases hinput : ∃ w ∈ block.inputs, Register.virtual v = .virtual w
  · rw [Function.inputsOf_eq hb]
    exact Or.inl hinput
  · refine Or.inr ((hstrict v).available_of_exposes hb ⟨fun w hw hvw => ?_, hneeds⟩)
    exact hinput ⟨w, hw, hvw⟩

/-- What the stores before and after a spill have in common: all registers but the fresh
    ones, and all slots but the new one, which holds the spilled register. -/
structure Kept (slot : Slot) (v : VReg M) (Fresh : VReg M → Prop) (s t : Store M) : Prop where
  regs : ∀ r, (∀ w, Fresh w → r ≠ .virtual w) → t.regs r = s.regs r
  held : t.slots slot.id = s.regs (.virtual v)
  slots : ∀ k, k ≠ slot.id → t.slots k = s.slots k

variable {slot : Slot} {v : VReg M} {Fresh : VReg M → Prop}

theorem Operand.rename_self (u : Operand M) : u.rename (fun r => r) = u := by
  cases u <;> rfl

theorem Instr.uses_readInstead (i : Instr M) (w : VReg M) :
    (i.readInstead v w).uses =
      i.uses.map (Operand.rename fun r => if r = .virtual v then .virtual w else r) := by
  unfold Instr.readInstead
  refine List.map_congr_left fun u _ => ?_
  cases u with
  | reg r =>
      by_cases hr : r = .virtual v
      · simp [hr, Operand.ofVReg, Operand.rename]
      · simp [hr, Operand.ofVReg, Operand.rename]
  | imm x => rfl
  | frame s offset => rfl
  | global name => rfl
  | block target => rfl

namespace Kept

variable {s t : Store M}

/-- An instruction that does not read the spilled register stays as it is. -/
theorem follows (h : Kept slot v Fresh s t) {i : Instr M}
    (hstale : ∀ w, Fresh w → .virtual w ∉ i.reads) : i.Follows s i t where
  op := rfl
  uses := by
    refine ⟨fun r => r, ?_, fun r hr x hx => ?_⟩
    · rw [List.map_congr_left fun u _ => u.rename_self, List.map_id']
    · rw [h.regs r fun w hw hrw => hstale w hw (hrw ▸ hr)]
      exact hx

/-- An instruction that reads the spilled register reads a reloaded one. -/
theorem follows_readInstead (h : Kept slot v Fresh s t) {i : Instr M}
    (hstale : ∀ w, Fresh w → .virtual w ∉ i.reads) {w : VReg M}
    (hw : t.regs (.virtual w) = s.regs (.virtual v)) : i.Follows s (i.readInstead v w) t where
  op := rfl
  uses := by
    refine ⟨_, i.uses_readInstead w, fun r hr x hx => ?_⟩
    by_cases hrv : r = .virtual v
    · rw [if_pos hrv, hw, ← hrv]
      exact hx
    · rw [if_neg hrv, h.regs r fun u hu hru => hstale u hu (hru ▸ hr)]
      exact hx

/-- A fresh register may be written. -/
theorem setReg_fresh (h : Kept slot v Fresh s t) {w : VReg M} (hw : Fresh w) (x : Int64) :
    Kept slot v Fresh s (t.setReg (.virtual w) x) where
  regs r hr := by
    rw [Store.regs_setReg, if_neg (hr w hw)]
    exact h.regs r hr
  held := h.held
  slots := h.slots

/-- A reload fetches the spilled register. -/
theorem reload (h : Kept slot v Fresh s t) {w : VReg M} (hw : Fresh w)
    (hsome : (s.regs (.virtual v)).isSome) (g : Function M) :
    ∃ t', (reloadFrom slot w).effect? g t = some (.next t') ∧ Kept slot v Fresh s t' ∧
      t'.regs (.virtual w) = s.regs (.virtual v) ∧
        ∀ r, r ≠ .virtual w → t'.regs r = t.regs r := by
  rcases Option.isSome_iff_exists.mp hsome with ⟨x, hx⟩
  refine ⟨t.setReg (.virtual w) x, ?_, h.setReg_fresh hw x, ?_, fun r hr => ?_⟩
  · have hslot : t.slots slot.id = some x := h.held.trans hx
    simp [reloadFrom, Instr.effect?, Instr.slot?, hslot, Instr.write?]
  · rw [Store.regs_setReg, if_pos rfl, hx]
  · rw [Store.regs_setReg, if_neg hr]

theorem effect_saveTo {x : Int64} (hx : t.regs (.virtual v) = some x) (g : Function M) :
    (saveTo slot v).effect? g t = some (.next (t.setSlot slot.id x)) := by
  simp [saveTo, Instr.effect?, Instr.slot?, Instr.operand?, Operand.ofVReg, Store.value?, hx]

/-- A write, followed by a save if it is to the spilled register. -/
theorem write (h : Kept slot v Fresh s t) {i : Instr M} {d : Register M} (hdefs : i.defs = [d])
    (hd : ∀ w, Fresh w → d ≠ .virtual w) (x : Int64) (g : Function M) :
    ∃ t', g.pass? (t.setReg d x) (saveAfter slot v i) = some t' ∧
      Kept slot v Fresh (s.setReg d x) t' := by
  have hregs : ∀ r, (∀ w, Fresh w → r ≠ .virtual w) →
      (t.setReg d x).regs r = (s.setReg d x).regs r := by
    intro r hr
    rw [Store.regs_setReg, Store.regs_setReg, h.regs r hr]
  by_cases hdv : d = .virtual v
  · -- The save brings the slot up to date.
    subst hdv
    have hwrites : i.writesV v = true := Instr.writesV_iff.mpr (by simp [hdefs])
    refine ⟨(t.setReg (.virtual v) x).setSlot slot.id x, ?_, hregs, ?_, fun k hk => ?_⟩
    · simp only [saveAfter, hwrites, if_true, Function.pass?]
      rw [effect_saveTo (x := x) (by rw [Store.regs_setReg, if_pos rfl])]
    · rw [Store.slots_setSlot, if_pos rfl, Store.regs_setReg, if_pos rfl]
    · rw [Store.slots_setSlot, if_neg hk, Store.slots_setReg, Store.slots_setReg]
      exact h.slots k hk
  · have hwrites : i.writesV v ≠ true := fun hw => hdv (by
      have hmem := Instr.writesV_iff.mp hw
      rw [hdefs, List.mem_singleton] at hmem
      exact hmem.symm)
    refine ⟨t.setReg d x, by simp [saveAfter, hwrites, Function.pass?], hregs, ?_, ?_⟩
    · rw [Store.slots_setReg, Store.regs_setReg, if_neg (fun hv => hdv hv.symm)]
      exact h.held
    · exact h.slots

/-- An instruction under its new name, with the save after it. -/
theorem instr (h : Kept slot v Fresh s t) {f g : Function M} {i j : Instr M} (hreg : i.Regular)
    (hterm : i.isTerminator = false) (hstale : ∀ w, Fresh w → .virtual w ∉ i.defs)
    (hslot : i.slot? ≠ some slot.id) (hfollows : i.Follows s j t) (hdefs : j.defs = i.defs)
    {s' : Store M} (heff : i.effect? f s = some (.next s')) :
    ∃ t', g.pass? t (j :: saveAfter slot v i) = some t' ∧ Kept slot v Fresh s' t' := by
  have hreg' := hreg.congr hfollows.op hdefs
  have hterm' : j.isTerminator = false := by
    rw [Instr.isTerminator, hfollows.op]
    exact hterm
  have hslots : ∀ k, i.slot? = some k → t.slots k = s.slots k := fun k hk =>
    h.slots k fun heq => hslot (heq ▸ hk)
  rcases Instr.effect_of_regular hreg hterm f s with ⟨d, hop, hd, heff'⟩ | ⟨hop, hd, heff'⟩
  · rw [heff', Option.map_eq_some_iff] at heff
    rcases heff with ⟨x, hx, hs'⟩
    rw [Effect.next.injEq] at hs'
    subst hs'
    have hresult := hfollows.result hslots hx
    rcases Instr.effect_of_regular hreg' hterm' g t with ⟨d', _, hd', hj⟩ | ⟨hop', _, _⟩
    · obtain rfl : d = d' := by
        rw [hdefs, hd] at hd'
        exact List.head_eq_of_cons_eq hd'
      rw [hresult] at hj
      rcases h.write hd (fun w hw hdw => hstale w hw (by simp [hd, hdw])) x g with
        ⟨t', hpass, hkept⟩
      refine ⟨t', ?_, hkept⟩
      simp only [Function.pass?, hj, Option.map_some]
      exact hpass
    · exact absurd (hfollows.op.symm.trans hop') hop
  · rw [heff', Option.map_eq_some_iff] at heff
    rcases heff with ⟨kx, hkx, hs'⟩
    rw [Effect.next.injEq] at hs'
    subst hs'
    have hsaved := hfollows.saved hkx
    rcases Instr.effect_of_regular hreg' hterm' g t with ⟨_, hop', _, _⟩ | ⟨_, _, hj⟩
    · exact absurd (hfollows.op.trans hop) hop'
    · rw [hsaved] at hj
      -- A save of another slot writes no register, so no save follows it.
      have hwrites : i.writesV v ≠ true := fun hw => by
        have hmem := Instr.writesV_iff.mp hw
        rw [hd] at hmem
        exact absurd hmem (by simp)
      have hk : kx.1 ≠ slot.id := fun heq => hslot (heq ▸ (Instr.saved_eq_some.mp hkx).1)
      refine ⟨t.setSlot kx.1 kx.2, by simp [Function.pass?, hj, saveAfter, hwrites], ?_, ?_, ?_⟩
      · exact h.regs
      · rw [Store.slots_setSlot, if_neg (Ne.symm hk)]
        exact h.held
      · intro k hne
        rw [Store.slots_setSlot, Store.slots_setSlot, h.slots k hne]

end Kept

/-- Straight-line code after a spill keeps up with the code before it. -/
theorem SpillsTo.pass {code code' : List (Instr M)} (h : SpillsTo slot v Fresh code code')
    {f g : Function M} (hreg : ∀ i ∈ code, i.Regular) (hterm : ∀ i ∈ code, i.isTerminator = false)
    (hstale : Stale Fresh code) (hslot : ∀ i ∈ code, i.slot? ≠ some slot.id) {s t : Store M}
    (hkept : Kept slot v Fresh s t) (hcovers : s.Covers code) {s' : Store M}
    (hpass : f.pass? s code = some s') :
    ∃ t', g.pass? t code' = some t' ∧ Kept slot v Fresh s' t' := by
  induction h generalizing s t with
  | nil =>
      simp only [Function.pass?, Option.some.injEq] at hpass
      exact ⟨t, rfl, hpass ▸ hkept⟩
  -- The instruction does not read the register, so it follows as it is.
  | @keep i hread code code' rest ih =>
      rcases Function.pass_cons_eq_some.mp hpass with ⟨s₁, heff, hrest⟩
      have hfollows := hkept.follows fun w hw => (hstale.cons.1 w hw).2
      rcases hkept.instr (g := g) (hreg i (by simp)) (hterm i (by simp))
        (fun w hw => (hstale.cons.1 w hw).1) (hslot i (by simp)) hfollows rfl heff with
        ⟨t₁, hpass₁, hkept₁⟩
      rcases ih (fun j hj => hreg j (by simp [hj])) (fun j hj => hterm j (by simp [hj]))
        hstale.cons.2 (fun j hj => hslot j (by simp [hj])) hkept₁
        (hcovers.next (hreg i (by simp)) (hterm i (by simp)) heff) hrest with ⟨t', hpass', hkept'⟩
      refine ⟨t', ?_, hkept'⟩
      rw [← List.cons_append, Function.pass_append, hpass₁]
      exact hpass'
  | @reload i hread w hw code code' rest ih =>
      rcases Function.pass_cons_eq_some.mp hpass with ⟨s₁, heff, hrest⟩
      -- The reload puts the value of the slot where the changed instruction reads it.
      rcases hkept.reload hw (hcovers.reads hread) g with ⟨t₀, hreload, hkept₀, hvalue, _⟩
      have hfollows := hkept₀.follows_readInstead (fun w hw => (hstale.cons.1 w hw).2) hvalue
      rcases hkept₀.instr (g := g) (hreg i (by simp)) (hterm i (by simp))
        (fun w hw => (hstale.cons.1 w hw).1) (hslot i (by simp)) hfollows rfl heff with
        ⟨t₁, hpass₁, hkept₁⟩
      rcases ih (fun j hj => hreg j (by simp [hj])) (fun j hj => hterm j (by simp [hj]))
        hstale.cons.2 (fun j hj => hslot j (by simp [hj])) hkept₁
        (hcovers.next (hreg i (by simp)) (hterm i (by simp)) heff) hrest with ⟨t', hpass', hkept'⟩
      refine ⟨t', Function.pass_cons_eq_some.mpr ⟨t₀, hreload, ?_⟩, hkept'⟩
      rw [← List.cons_append, Function.pass_append, hpass₁]
      exact hpass'

namespace Hoisted

variable {run reloads run' : List (Instr M)} {s t : Store M}

/-- The reloads before the terminators are run one after the other. -/
theorem pass_reloads (h : Hoisted slot v Fresh run reloads run')
    (hsome : (∃ i ∈ run, .virtual v ∈ i.reads) → (s.regs (.virtual v)).isSome)
    (hkept : Kept slot v Fresh s t) (g : Function M) :
    ∃ t', g.pass? t reloads = some t' ∧ Kept slot v Fresh s t' ∧
      (∀ w, reloadFrom slot w ∈ reloads → t'.regs (.virtual w) = s.regs (.virtual v)) ∧
        ∀ w, t.regs (.virtual w) = s.regs (.virtual v) →
          t'.regs (.virtual w) = s.regs (.virtual v) := by
  induction h generalizing t with
  | nil => exact ⟨t, rfl, hkept, by simp, fun _ hw => hw⟩
  | keep _ _ ih =>
      refine ih (fun ⟨i, hi, hread⟩ => hsome ⟨i, List.mem_cons_of_mem _ hi, hread⟩) hkept
  | @reload i hread w hw _ _ _ _ ih =>
      rcases hkept.reload hw (hsome ⟨i, List.mem_cons_self, hread⟩) g with
        ⟨t₁, hreload, hkept₁, hvalue, hother⟩
      rcases ih (fun ⟨i, hi, hread⟩ => hsome ⟨i, List.mem_cons_of_mem _ hi, hread⟩) hkept₁ with
        ⟨t', hpass, hkept', hreloaded, hstay⟩
      refine ⟨t', Function.pass_cons_eq_some.mpr ⟨t₁, hreload, hpass⟩, hkept', ?_, ?_⟩
      · -- A later reload of the same register fetches the same value.
        intro u hu
        rcases List.mem_cons.mp hu with heq | hu
        · have huw : u = w := by simpa [reloadFrom] using heq
          exact hstay u (huw ▸ hvalue)
        · exact hreloaded u hu
      · intro u hu
        refine hstay u ?_
        by_cases huw : u = w
        · exact huw ▸ hvalue
        · rw [hother _ (by simpa using huw)]
          exact hu

/-- After the reloads, the terminators find what they found before. -/
theorem follows (h : Hoisted slot v Fresh run reloads run') (hstale : Stale Fresh run)
    (hterm : ∀ i ∈ run, i.isTerminator = true) (hkept : Kept slot v Fresh s t)
    (hreloaded : ∀ w, reloadFrom slot w ∈ reloads → t.regs (.virtual w) = s.regs (.virtual v)) :
    List.Forall₂ (fun i j => i.isTerminator = true ∧ i.Follows s j t) run run' := by
  induction h with
  | nil => exact .nil
  | @keep i _ _ _ _ _ ih =>
      refine .cons ⟨hterm i (by simp), hkept.follows fun w hw => (hstale.cons.1 w hw).2⟩ ?_
      exact ih hstale.cons.2 (fun j hj => hterm j (by simp [hj])) hreloaded
  | @reload i _ w _ _ _ _ _ ih =>
      refine .cons ⟨hterm i (by simp), hkept.follows_readInstead
        (fun w hw => (hstale.cons.1 w hw).2) (hreloaded w (by simp))⟩ ?_
      exact ih hstale.cons.2 (fun j hj => hterm j (by simp [hj]))
        fun u hu => hreloaded u (List.mem_cons_of_mem _ hu)

end Hoisted

namespace Function

variable {f g : Function M}

/-- What allocation keeps true of a function: its analysis is exact, its code runs on the
    registers it names, and virtual registers are written before they are read. -/
structure Workable (f : Function M) : Prop where
  tractable : f.Tractable
  runnable : f.Runnable
  strict : ∀ v : VReg M, f.Strict (.virtual v)

theorem SpillsTo.runnable (h : f.SpillsTo slot v Fresh g) (hf : f.Runnable) : g.Runnable where
  terminated c hc := by
    rcases exists_left_of_forall₂ h.blocks hc with ⟨b, hb, hbc⟩
    exact hbc.terminated (hf.terminated b hb)
  regular c hc j hj := by
    rcases exists_left_of_forall₂ h.blocks hc with ⟨b, hb, hbc⟩
    cases hbc.spilledFrom hj with
    | kept hi => exact hf.regular b hb j hi
    | @changed i hi w _ => exact (hf.regular b hb i hi).congr rfl rfl
    | reload _ => exact .reload _ _
    | save _ _ => exact .save _
  fits c hc j hj branch hbranch := by
    rcases exists_left_of_forall₂ h.blocks hc with ⟨b, hb, hbc⟩
    rcases hbc.cut with ⟨_, _, _, hrun, _⟩
    -- The branch of the old terminator has the same target and as many arguments.
    have hold : ∃ i ∈ b.run, ∃ old ∈ i.branches, old.target = branch.target ∧
        old.args.length = branch.args.length := by
      rcases hrun.mem_cases hj with ⟨hj, _⟩ | ⟨i, hi, w, _, _, rfl⟩
      · exact ⟨j, hj, branch, hbranch, rfl, rfl⟩
      · rw [Instr.branches_rename (i.uses_readInstead w), List.mem_map] at hbranch
        rcases hbranch with ⟨old, hold, rfl⟩
        exact ⟨i, hi, old, hold, rfl, by simp [Branch.rename]⟩
    rcases hold with ⟨i, hi, old, hold, htarget, hlen⟩
    rcases hf.fits b hb i hi old hold with ⟨target, hblock, hfits⟩
    rcases getElem?_of_forall₂ h.blocks hblock with ⟨target', hblock', hspills⟩
    exact ⟨target', htarget ▸ hblock', by rw [← hlen, hfits, hspills.inputs]⟩

theorem SpillsTo.strict (h : f.SpillsTo slot v Fresh g) (hf : f.Workable) (u : VReg M) :
    g.Strict (.virtual u) := by
  refine .of_exposes fun b c hc hexposes => ?_
  rcases h.block_of hc with ⟨block, hblock, hspills⟩
  rcases SpillsTo.kinds v Fresh (.virtual u) with hnew | hold
  · exact absurd hexposes (hspills.not_exposes (h.stale_code (List.mem_of_getElem? hblock)) hnew)
  · have hexposed := (hspills.exposes_iff hold).mp hexposes
    have havail := (hf.strict u).available_of_exposes hblock hexposed
    intro path hwalk
    rw [h.next_eq] at hwalk
    rcases havail path hwalk with ⟨d, hd, hdef⟩
    exact ⟨d, hd, (h.defines_iff hf.tractable.quiet hold.2).mpr hdef⟩

namespace Workable

theorem spill (hf : f.Workable) (h : f.SpillsTo slot v Fresh g) : g.Workable where
  tractable := hf.tractable.spill h
  runnable := h.runnable hf.runnable
  strict := h.strict hf

/-- After the body of a block and the reloads behind it, the terminators find what they
    found before. -/
theorem pass_spill (hf : f.Workable) (h : f.SpillsTo slot v Fresh g)
    (hslot : ∀ i ∈ f.instructions, i.slot? ≠ some slot.id) {b : Nat} {block c : Block M}
    (hb : f.blocks[b]? = some block) (hspills : block.SpillsTo slot v Fresh c) {s t : Store M}
    (hready : f.Ready b s) (hkept : Kept slot v Fresh s t) {s' : Store M}
    (hpass : f.pass? s block.body = some s') :
    ∃ t', g.pass? t c.body = some t' ∧ Kept slot v Fresh s' t' ∧
      List.Forall₂ (fun i j => i.isTerminator = true ∧ i.Follows s' j t') block.run c.run := by
  have hmem := List.mem_of_getElem? hb
  have hstale := h.stale_code hmem
  have hbodyCode : ∀ i ∈ block.body, i ∈ block.code := fun i hi =>
    Block.mem_code_iff.mpr (Or.inl hi)
  have hreg := hf.runnable.regular_body hmem
  have hterm := hf.runnable.straight_body hmem
  have hcovers : s.Covers (block.body ++ block.run) := by
    rw [Block.body_append_run]
    exact hready.covers hf.strict hb
  have hcovers' : s.Covers block.body := fun u hu => hcovers u (needs_append.mpr (Or.inl hu))
  rcases hspills.cut with ⟨body, reloads, hbody, hrun, hcbody⟩
  rcases hbody.pass (g := g) hreg hterm (fun i hi => hstale i (hbodyCode i hi))
    (fun i hi => hslot i (mem_instructions hmem (hbodyCode i hi))) hkept hcovers' hpass with
    ⟨t₁, hpass₁, hkept₁⟩
  -- A terminator that reads the register makes the run need it.
  have hsome : (∃ i ∈ block.run, .virtual v ∈ i.reads) → (s'.regs (.virtual v)).isSome := by
    rintro ⟨i, hi, hread⟩
    refine hcovers.pass hreg hterm hpass v ?_
    refine needs_of_not_written (fun j hj => ?_) hi hread
    simp [hf.tractable.quiet block hmem j hj]
  rcases hrun.pass_reloads hsome hkept₁ g with ⟨t', hpass', hkept', hreloaded, _⟩
  refine ⟨t', ?_, hkept', hrun.follows (fun i hi => ?_) (fun i hi => ?_) hkept' hreloaded⟩
  · rw [hcbody, pass_append, hpass₁]
    exact hpass'
  · exact hstale i (Block.mem_code_iff.mpr (Or.inr hi))
  · exact Block.isTerminator_of_mem_run hi

/-- The stay in a block after a spill ends as it did before. -/
theorem leave_spill (hf : f.Workable) (h : f.SpillsTo slot v Fresh g)
    (hslot : ∀ i ∈ f.instructions, i.slot? ≠ some slot.id) {b : Nat} {s t : Store M}
    (hready : f.Ready b s) (hkept : Kept slot v Fresh s t) {e : Exit M}
    (he : f.leave? s (f.codeOf b) = some e) :
    ∃ e' s' t', g.leave? t (g.codeOf b) = some e' ∧ e.Alike s' t' e' ∧ Kept slot v Fresh s' t' := by
  rcases exists_block_of_leave he with ⟨block, hb, he⟩
  rcases getElem?_of_forall₂ h.blocks hb with ⟨c, hc, hspills⟩
  rw [hf.runnable.leave_eq (List.mem_of_getElem? hb), Option.bind_eq_some_iff] at he
  rcases he with ⟨s', hpass, hrun⟩
  rcases hf.pass_spill h hslot hb hspills hready hkept hpass with ⟨t', hpass', hkept', hfollows⟩
  -- Blocks have no inputs on either side, and the terminators follow each other.
  have hparallel : f.Parallel g :=
    ⟨hf.tractable.inputs, (hf.spill h).tractable.inputs, h.blocks.length_eq.symm⟩
  rcases hparallel.leave hfollows hrun with ⟨e', he', halike⟩
  refine ⟨e', s', t', ?_, halike, hkept'⟩
  rw [codeOf_eq hc, (h.runnable hf.runnable).leave_eq (List.mem_of_getElem? hc), hpass']
  exact he'

theorem inputsOf_entry (hf : f.Workable) : f.inputsOf 0 = [] := by
  unfold inputsOf
  cases hb : f.blocks[0]? with
  | none => rfl
  | some block => exact hf.tractable.inputs block (List.mem_of_getElem? hb)

/-- A spill keeps what a function returns. -/
theorem returns_spill (hf : f.Workable) (h : f.SpillsTo slot v Fresh g)
    (hslot : ∀ i ∈ f.instructions, i.slot? ≠ some slot.id) {x : Int64} (hx : f.Returns x) :
    g.Returns x := by
  refine returns_of_simulation (R := fun b s t => f.Ready b s ∧ Kept slot v Fresh s t)
    ⟨ready_empty hf.inputsOf_entry, fun _ _ => rfl, rfl, fun _ _ => rfl⟩ ?_ ?_ hx
  · rintro b s t y ⟨hready, hkept⟩ hdone
    rcases hf.leave_spill h hslot hready hkept hdone with ⟨e', s', t', he', halike, _⟩
    cases halike
    exact he'
  · rintro b s t s' c ⟨hready, hkept⟩ henter
    rcases hf.leave_spill h hslot hready hkept henter with ⟨e', u, t', he', halike, hkept'⟩
    cases halike
    exact ⟨t', .direct he', (hready.enter hf.runnable henter).1, hkept'⟩

end Workable

end Function

end RegisterColoring
