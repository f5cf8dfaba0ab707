import RegisterColoring.Proofs.Placement
import RegisterColoring.Proofs.Renamed
import RegisterColoring.Proofs.SpilledRuns

/-!
# Runs of Placed Functions

A place may hold one register after another, as long as no write hits a place whose
value is still wanted. The stores of the function and of its placed form then agree
on the wanted registers, instruction by instruction and from block to block, and both
return the same value.

That no write hits a wanted place is a matter of ranges: a register that is wanted
after an instruction which writes another one has a range around that instruction,
and the other register has a range that starts with it.

## Main definitions

* `Block.WantedFrom`: The value before an instruction is read later.
* `Function.KeepsApart`: No write hits the place of a wanted register.
* `Function.Carried`: Two stores agree on the wanted registers.

## Theorems

* `Function.exists_range_of_wanted`: A wanted register has a range around the write.
* `Function.Workable.keepsApart_place`: A complete coloring keeps wanted registers apart.
* `Function.Carried.pass`: The stores agree along the body of a block.
* `Function.Workable.returns_place`: A placed function returns the same value.
-/

namespace RegisterColoring

variable {M : Machine}

namespace Block

/-- The value that register `r` has before instruction `k` is read in the block, or
    kept to its end and read after it. -/
def WantedFrom (b : Block M) (r : Register M) (out : Prop) (k : Nat) : Prop :=
  (∃ j, b.ReadsFrom r k j) ∨ (out ∧ ¬ b.WritesFrom r k)

variable {b : Block M} {r : Register M} {out : Prop}

theorem wantedFrom_of_reads {k : Nat} {i : Instr M} (hi : b.code[k]? = some i)
    (hread : r ∈ i.reads) : b.WantedFrom r out k :=
  Or.inl ⟨k, Nat.le_refl k, ⟨i, hi, hread⟩, fun _ _ hle hlt => absurd hlt (by omega)⟩

section Kept

variable {m k : Nat} (hmk : m ≤ k)
  (hkept : ∀ j i, m ≤ j → j < k → b.code[j]? = some i → r ∉ i.defs)
include hmk hkept

theorem ReadsFrom.of_kept {j : Nat} (h : b.ReadsFrom r k j) : b.ReadsFrom r m j := by
  rcases h with ⟨hkj, hread, hclean⟩
  refine ⟨by omega, hread, fun n i hmn hnj hi => ?_⟩
  by_cases hnk : n < k
  · exact hkept n i hmn hnk hi
  · exact hclean n i (by omega) hnj hi

omit hmk in
theorem WritesFrom.of_kept (h : b.WritesFrom r m) : b.WritesFrom r k := by
  rcases h with ⟨j, i, hmj, hi, hdef⟩
  by_cases hjk : j < k
  · exact absurd hdef (hkept j i hmj hjk hi)
  · exact ⟨j, i, by omega, hi, hdef⟩

/-- What is wanted is wanted before all code that does not write it. -/
theorem WantedFrom.of_kept (h : b.WantedFrom r out k) : b.WantedFrom r out m := by
  rcases h with ⟨j, hj⟩ | ⟨hout, hlast⟩
  · exact Or.inl ⟨j, hj.of_kept hmk hkept⟩
  · exact Or.inr ⟨hout, fun hwrites => hlast (hwrites.of_kept hkept)⟩

/-- A value that is wanted from instruction `k` on does not stop before it. -/
theorem Stops.le_of_wanted {start stop : Nat} (h : b.Stops r out m start stop)
    (hwanted : b.WantedFrom r out k) (hk : k ≤ b.lastIndex) : k ≤ stop := by
  cases h with
  | last _ _ => exact hk
  | read hlocal _ hlast =>
      rcases hwanted with ⟨j, hj⟩ | ⟨hout, hnot⟩
      · exact Nat.le_trans hj.1 (hlast j (hj.of_kept hmk hkept))
      · exact absurd ((hlocal hout).of_kept hkept) hnot
  | unread hlocal hnone =>
      rcases hwanted with ⟨j, hj⟩ | ⟨hout, hnot⟩
      · exact absurd (hj.of_kept hmk hkept) (hnone j)
      · exact absurd ((hlocal hout).of_kept hkept) hnot

end Kept

/-- What is wanted after an instruction that does not write it is wanted before it. -/
theorem WantedFrom.of_next {k : Nat} {i : Instr M} (hi : b.code[k]? = some i) (hr : r ∉ i.defs)
    (h : b.WantedFrom r out (k + 1)) : b.WantedFrom r out k := by
  refine h.of_kept (Nat.le_succ k) fun j i' hkj hjk hi' => ?_
  rw [show j = k by omega, hi, Option.some.injEq] at hi'
  subst hi'
  exact hr

theorem exists_stops (b : Block M) (r : Register M) (out : Prop) (k start : Nat) :
    ∃ stop, b.Stops r out k start stop := by
  by_cases hlast : out ∧ ¬ b.WritesFrom r k
  · exact ⟨_, .last hlast.1 hlast.2⟩
  · have hlocal : out → b.WritesFrom r k := fun hout =>
      Classical.not_not.mp fun hnot => hlast ⟨hout, hnot⟩
    exact ⟨_, (stops_iff_of_local hlocal).mpr rfl⟩

/-- The latest write of a register before instruction `k`, if there is one. -/
theorem exists_latest_write (b : Block M) (r : Register M) (k : Nat) :
    (∀ j i, j < k → b.code[j]? = some i → r ∉ i.defs) ∨
      ∃ a i, a < k ∧ b.code[a]? = some i ∧ r ∈ i.defs ∧
        ∀ j i, a + 1 ≤ j → j < k → b.code[j]? = some i → r ∉ i.defs := by
  induction k with
  | zero => exact Or.inl fun j i hj => absurd hj (by omega)
  | succ k ih =>
      -- The instruction before, if it writes; otherwise the latest write before it.
      by_cases hhere : ∃ i, b.code[k]? = some i ∧ r ∈ i.defs
      · rcases hhere with ⟨i, hi, hdef⟩
        exact Or.inr ⟨k, i, by omega, hi, hdef, fun j _ hj hlt => absurd hlt (by omega)⟩
      · have hstep : ∀ j i, j = k → b.code[j]? = some i → r ∉ i.defs := fun j i hj hi hdef =>
          hhere ⟨i, hj ▸ hi, hdef⟩
        rcases ih with hnone | ⟨a, i, ha, hi, hdef, hclean⟩
        · refine Or.inl fun j i hj hi => ?_
          rcases Nat.lt_succ_iff_lt_or_eq.mp hj with hlt | heq
          · exact hnone j i hlt hi
          · exact hstep j i heq hi
        · refine Or.inr ⟨a, i, by omega, hi, hdef, fun j i haj hj hi => ?_⟩
          rcases Nat.lt_succ_iff_lt_or_eq.mp hj with hlt | heq
          · exact hclean j i haj hlt hi
          · exact hstep j i heq hi

end Block

namespace Function

variable {f : Function M}

/-- What is wanted from the start of a block is live into it. -/
theorem liveInto_of_wanted (hin : ∀ b ∈ f.blocks, b.inputs = []) {b : Nat} {block : Block M}
    (hb : f.blocks[b]? = some block) {r : Register M}
    (hwanted : block.WantedFrom r (f.LiveOutOf r b) 0) : f.LiveInto r b := by
  have hinputs := hin block (List.mem_of_getElem? hb)
  rcases hwanted with ⟨j, _, hread, hclean⟩ | ⟨⟨c, hc, hlive⟩, hnot⟩
  · refine .here hb ⟨by simp [hinputs], j, hread, fun m hm i hi => ?_⟩
    exact hclean m i (Nat.zero_le m) hm hi
  · refine .there ?_ hc hlive
    rintro ⟨block', hb', hdef⟩
    rw [hb, Option.some.injEq] at hb'
    subst hb'
    rcases hdef with ⟨v, hv, _⟩ | ⟨i, hi, hdef⟩
    · exact absurd hv (by simp [hinputs])
    · rcases List.getElem?_of_mem hi with ⟨j, hj⟩
      exact hnot ⟨j, i, Nat.zero_le j, hj, hdef⟩

/-- A register that is wanted after instruction `k`, which does not write it, has a
    range around it. -/
theorem exists_range_of_wanted (hin : ∀ b ∈ f.blocks, b.inputs = []) {b : Nat} {block : Block M}
    (hb : f.blocks[b]? = some block) {r : Register M} {k : Nat} {i : Instr M}
    (hi : block.code[k]? = some i) (hnot : r ∉ i.defs) (hk : k < block.lastIndex)
    (hwanted : block.WantedFrom r (f.LiveOutOf r b) (k + 1)) :
    ∃ a e, f.HasRange r b a e ∧ a ≤ k ∧ k < e ∧ (f.LiveInto r b ∨ f.Defines b r) := by
  rcases block.exists_latest_write r (k + 1) with hnone | ⟨a, j, ha, hj, hdef, hclean⟩
  · -- The value comes from before the block.
    have hkept : ∀ j i, 0 ≤ j → j < k + 1 → block.code[j]? = some i → r ∉ i.defs :=
      fun j i _ => hnone j i
    have hlive := liveInto_of_wanted hin hb (hwanted.of_kept (Nat.zero_le _) hkept)
    rcases block.exists_stops r (f.LiveOutOf r b) 0 0 with ⟨e, hstops⟩
    have hle := hstops.le_of_wanted (Nat.zero_le _) hkept hwanted hk
    exact ⟨0, e, ⟨block, hb, Or.inl ⟨rfl, hlive, hstops⟩⟩, Nat.zero_le k, hle, Or.inl hlive⟩
  · have hak : a ≠ k := by
      rintro rfl
      rw [hi, Option.some.injEq] at hj
      subst hj
      exact hnot hdef
    rcases block.exists_stops r (f.LiveOutOf r b) (a + 1) a with ⟨e, hstops⟩
    have hle := hstops.le_of_wanted (by omega) hclean hwanted hk
    refine ⟨a, e, ⟨block, hb, Or.inr ⟨j, hj, hdef, hstops⟩⟩, by omega, hle, Or.inr ?_⟩
    exact ⟨block, hb, Or.inr ⟨j, List.mem_of_getElem? hj, hdef⟩⟩

/-- A register that is live into a block is written somewhere. -/
theorem Workable.defines_of_liveInto (hf : f.Workable) {v : VReg M} {b : Nat}
    (hlive : f.LiveInto (.virtual v) b) : ∃ c, f.Defines c (.virtual v) := by
  induction hlive with
  | here hb hexposes =>
      rcases hf.tractable.reached _ (List.getElem?_eq_some_iff.mp hb).1 with ⟨path, hwalk⟩
      rcases (hf.strict v).available_of_exposes hb hexposes path hwalk with ⟨c, _, hdef⟩
      exact ⟨c, hdef⟩
  | there _ _ _ ih => exact ih

/-- Behind the body of a block nothing is written. -/
theorem Tractable.defs_eq_nil (hf : f.Tractable) {block : Block M} (hblock : block ∈ f.blocks)
    {k : Nat} (hk : block.body.length ≤ k) {i : Instr M} (hi : block.code[k]? = some i) :
    i.defs = [] := by
  rw [← Block.body_append_run, List.getElem?_append_right hk] at hi
  exact hf.quiet block hblock i (List.mem_of_getElem? hi)

/-- An instruction that writes is not the last of its block. -/
theorem Tractable.lt_lastIndex (hf : f.Tractable) {block : Block M} (hblock : block ∈ f.blocks)
    {k : Nat} {i : Instr M} (hi : block.code[k]? = some i) (hdefs : i.defs ≠ []) :
    k < block.lastIndex := by
  have hrun := List.length_pos_iff.mpr (hf.terminated block hblock).run_ne_nil
  have hlen : block.code.length = block.body.length + block.run.length := by
    rw [← List.length_append, Block.body_append_run]
  by_cases hk : k < block.body.length
  · unfold Block.lastIndex
    omega
  · exact absurd (hf.defs_eq_nil hblock (by omega) hi) hdefs

/-- No write hits the place of a register whose value is wanted after it. -/
def KeepsApart (f : Function M) (ρ : Register M → Register M) : Prop :=
  ∀ b (block : Block M) k (i : Instr M) d r, f.blocks[b]? = some block →
    block.code[k]? = some i → i.defs = [d] → r ≠ d →
      block.WantedFrom r (f.LiveOutOf r b) (k + 1) → ρ r ≠ ρ d

/-- A complete coloring keeps wanted registers apart. -/
theorem Workable.keepsApart_place (hf : f.Workable) (hM : M.Disjoint) {l : Liveness M}
    (hl : f.liveness = .ok l) {colors : Assignment M}
    (hcolors : l.interference.color = .ok (.complete colors)) :
    f.KeepsApart (colors.place l.interference) := by
  intro b block k i d r hb hi hdefs hne hwanted
  have hin := hf.tractable.inputs
  have hk := hf.tractable.lt_lastIndex (List.mem_of_getElem? hb) hi (by simp [hdefs])
  have hmem : d ∈ i.defs := by simp [hdefs]
  rcases exists_range_of_wanted hin hb hi (by simp [hdefs, hne]) hk hwanted with
    ⟨a, e, hrange, hak, hke, hsource⟩
  -- Only virtual registers come into blocks, and those are written somewhere.
  have hr : ∃ c, f.Defines c r := by
    rcases hsource with hlive | hdef
    · cases r with
      | virtual v => exact hf.defines_of_liveInto hlive
      | physical p => exact absurd hlive (not_liveInto_physical hl hin hM p b)
    · exact ⟨b, hdef⟩
  have hd : f.Defines b d := ⟨block, hb, Or.inr ⟨i, List.mem_of_getElem? hi, hmem⟩⟩
  rcases block.exists_stops d (f.LiveOutOf d b) (k + 1) k with ⟨e', hstops⟩
  have hrange' : f.HasRange d b k e' := ⟨block, hb, Or.inr ⟨i, hi, hmem, hstops⟩⟩
  refine place_ne hf.runnable.regular hl hM hf.tractable hcolors hr ⟨b, hd⟩ hne hrange hrange' ?_
  -- The write is inside the first range and starts the second one.
  simp only [LiveRange.overlaps, decide_true, Bool.true_and, Bool.not_eq_true',
    Bool.or_eq_false_iff, Bool.and_eq_false_iff, decide_eq_false_iff_not]
  omega

end Function

theorem Instr.uses_mapRegs (ρ : Register M → Register M) (i : Instr M) :
    (i.mapRegs ρ).uses = i.uses.map (Operand.rename ρ) := by
  refine List.map_congr_left fun u _ => ?_
  cases u <;> rfl

theorem Instr.Regular.mapRegs {i : Instr M} (h : i.Regular) (ρ : Register M → Register M) :
    (i.mapRegs ρ).Regular := by
  cases h with
  | copy d uses => exact .copy _ _
  | arith o ho d uses => exact .arith o ho _ _
  | reload d uses => exact .reload _ _
  | save uses => exact .save _
  | terminator o ho uses => exact .terminator o ho _

namespace Function

variable {f g : Function M}

/-- The stores agree on what is wanted from instruction `k` of block `b` on. -/
structure Carried (f : Function M) (ρ : Register M → Register M) (b : Nat) (block : Block M)
    (k : Nat) (s t : Store M) : Prop where
  regs : ∀ r, block.WantedFrom r (f.LiveOutOf r b) k → ∀ x, s.regs r = some x →
    t.regs (ρ r) = some x
  slots : ∀ j, t.slots j = s.slots j

namespace Carried

variable {ρ : Register M → Register M} {b k : Nat} {block : Block M} {s t : Store M}

theorem follows (h : f.Carried ρ b block k s t) {i : Instr M}
    (hreads : ∀ r ∈ i.reads, block.WantedFrom r (f.LiveOutOf r b) k) :
    i.Follows s (i.mapRegs ρ) t where
  op := rfl
  uses := ⟨ρ, i.uses_mapRegs ρ, fun r hr => h.regs r (hreads r hr)⟩

/-- One instruction in its place. -/
theorem step (h : f.Carried ρ b block k s t) (hρ : f.KeepsApart ρ)
    (hb : f.blocks[b]? = some block) {i : Instr M} (hi : block.code[k]? = some i)
    (hreg : i.Regular) (hterm : i.isTerminator = false) {s' : Store M}
    (heff : i.effect? f s = some (.next s')) :
    ∃ t', (i.mapRegs ρ).effect? g t = some (.next t') ∧ f.Carried ρ b block (k + 1) s' t' := by
  have hfollows := h.follows fun r hr => Block.wantedFrom_of_reads hi hr
  rcases Instr.effect_of_regular hreg hterm f s with ⟨d, hop, hdefs, hs⟩ | ⟨hop, hdefs, hs⟩
  · -- A write: the places of other registers that are wanted after it are different.
    rw [hs, Option.map_eq_some_iff] at heff
    rcases heff with ⟨x, hx, hnext⟩
    cases hnext
    rcases Instr.effect_of_regular (hreg.mapRegs ρ) hterm g t with ⟨d', _, hdefs', ht⟩ | ⟨hsave, _⟩
    · have hd' : ρ d = d' := by
        have hmap : i.defs.map ρ = [d'] := hdefs'
        rw [hdefs] at hmap
        exact (List.cons.inj hmap).1
      subst hd'
      refine ⟨t.setReg (ρ d) x, ?_, ?_, h.slots⟩
      · rw [ht, hfollows.result (fun j _ => h.slots j) hx]
        rfl
      · intro r hr y hy
        simp only [Store.setReg] at hy ⊢
        by_cases hrd : r = d
        · rw [if_pos hrd] at hy
          rw [if_pos (by rw [hrd])]
          exact hy
        · rw [if_neg hrd] at hy
          rw [if_neg (hρ b block k i d r hb hi hdefs hrd hr)]
          exact h.regs r (hr.of_next hi (by simp [hdefs, hrd])) y hy
    · exact absurd hsave hop
  · -- A save: the registers stay as they are.
    rw [hs, Option.map_eq_some_iff] at heff
    rcases heff with ⟨⟨j, x⟩, hx, hnext⟩
    cases hnext
    rcases Instr.effect_of_regular (hreg.mapRegs ρ) hterm g t with ⟨_, hsave, _⟩ | ⟨_, _, ht⟩
    · exact absurd hop hsave
    · refine ⟨t.setSlot j x, ?_, fun r hr => h.regs r (hr.of_next hi (by simp [hdefs])), ?_⟩
      · rw [ht, hfollows.saved hx]
        rfl
      · intro n
        simp only [Store.setSlot, h.slots]

/-- The stores agree along code of a block. -/
theorem pass (hρ : f.KeepsApart ρ) (hb : f.blocks[b]? = some block) {code rest : List (Instr M)}
    (hreg : ∀ i ∈ code, i.Regular) (hterm : ∀ i ∈ code, i.isTerminator = false)
    (hdrop : block.code.drop k = code ++ rest) (h : f.Carried ρ b block k s t) {s' : Store M}
    (hpass : f.pass? s code = some s') :
    ∃ t', g.pass? t (code.map (Instr.mapRegs ρ)) = some t' ∧
      f.Carried ρ b block (k + code.length) s' t' := by
  induction code generalizing k s t with
  | nil =>
      simp only [pass?, Option.some.injEq] at hpass
      subst hpass
      exact ⟨t, rfl, h⟩
  | cons i code ih =>
      rcases pass_cons_eq_some.mp hpass with ⟨s₁, heff, hrest⟩
      have hi : block.code[k]? = some i := by
        have hhead := congrArg (fun l => l[0]?) hdrop
        simpa using hhead
      have hdrop' : block.code.drop (k + 1) = code ++ rest := by
        have htail := congrArg List.tail hdrop
        rw [List.tail_drop] at htail
        exact htail
      -- One step, and then the rest from the next index on.
      rcases h.step (g := g) hρ hb hi (hreg i (by simp)) (hterm i (by simp)) heff with
        ⟨t₁, heff₁, hcarried₁⟩
      rcases ih (fun j hj => hreg j (by simp [hj])) (fun j hj => hterm j (by simp [hj])) hdrop'
        hcarried₁ hrest with ⟨t', hpass', hcarried'⟩
      refine ⟨t', pass_cons_eq_some.mpr ⟨t₁, heff₁, hpass'⟩, ?_⟩
      rw [List.length_cons, show k + (code.length + 1) = k + 1 + code.length by omega]
      exact hcarried'

/-- What is wanted by the next block is wanted at the end of this one. -/
theorem enter (h : f.Carried ρ b block k s t) (hin : ∀ b ∈ f.blocks, b.inputs = [])
    (hlast : ∀ r, ¬ block.WritesFrom r k) {c : Nat} (hc : c ∈ f.next b) {target : Block M}
    (htarget : f.blocks[c]? = some target) : f.Carried ρ c target 0 s t where
  regs r hr := by
    have hlive := liveInto_of_wanted hin htarget hr
    exact h.regs r (Or.inr ⟨⟨c, hc, hlive⟩, hlast r⟩)
  slots := h.slots

end Carried

namespace Workable

variable {ρ : Register M → Register M}

/-- The block in its place is left as the block itself. -/
theorem leave_place (hf : f.Workable) (hρ : f.KeepsApart ρ) (hg : f.Parallel g) {b : Nat}
    {block : Block M} (hb : f.blocks[b]? = some block)
    (hcode : g.codeOf b = block.code.map (Instr.mapRegs ρ)) {s t : Store M}
    (hcarried : f.Carried ρ b block 0 s t) {e : Exit M} (he : f.leave? s block.code = some e) :
    ∃ e' s' t', g.leave? t (g.codeOf b) = some e' ∧ e.Alike s' t' e' ∧
      f.Carried ρ b block block.body.length s' t' := by
  have hmem := List.mem_of_getElem? hb
  have hreg := hf.runnable.regular_body hmem
  have hterm := hf.runnable.straight_body hmem
  rw [hf.runnable.leave_eq hmem, Option.bind_eq_some_iff] at he
  rcases he with ⟨s₁, hpass, he⟩
  have hdrop : block.code.drop 0 = block.body ++ block.run := by
    rw [List.drop_zero, Block.body_append_run]
  rcases hcarried.pass (g := g) hρ hb hreg hterm hdrop hpass with ⟨t₁, hpass₁, hcarried₁⟩
  rw [Nat.zero_add] at hcarried₁
  -- No terminator writes, so all that they read is wanted before the first of them.
  have hfollows : ∀ i ∈ block.run, i.isTerminator = true ∧ i.Follows s₁ (i.mapRegs ρ) t₁ := by
    intro i hi
    refine ⟨Block.isTerminator_of_mem_run hi, hcarried₁.follows fun r hr => Or.inl ?_⟩
    rcases List.getElem?_of_mem hi with ⟨j, hj⟩
    refine ⟨block.body.length + j, by omega, ⟨i, ?_, hr⟩, fun m i' hm _ hi' => ?_⟩
    · rw [← Block.body_append_run, List.getElem?_append_right (by omega), Nat.add_sub_cancel_left]
      exact hj
    · simp [hf.tractable.defs_eq_nil hmem hm hi']
  have hrun : List.Forall₂ (fun i j => i.isTerminator = true ∧ i.Follows s₁ j t₁) block.run
      (block.run.map (Instr.mapRegs ρ)) := by
    rw [List.forall₂_map_right_iff, List.forall₂_same]
    exact hfollows
  rcases hg.leave hrun he with ⟨e', he', halike⟩
  refine ⟨e', s₁, t₁, ?_, halike, hcarried₁⟩
  have hreg' : ∀ i ∈ block.body.map (Instr.mapRegs ρ), i.Regular := by
    intro i hi
    rcases List.mem_map.mp hi with ⟨j, hj, rfl⟩
    exact (hreg j hj).mapRegs ρ
  have hterm' : ∀ i ∈ block.body.map (Instr.mapRegs ρ), i.isTerminator = false := by
    intro i hi
    rcases List.mem_map.mp hi with ⟨j, hj, rfl⟩
    exact hterm j hj
  rw [hcode, ← Block.body_append_run, List.map_append, leave_append hreg' hterm', hpass₁]
  exact he'

/-- A function returns the same value when its registers are in their places. -/
theorem returns_place (hf : f.Workable) {colors : Assignment M} {graph : Interference M}
    (hρ : f.KeepsApart (colors.place graph)) {x : Int64} (hx : f.Returns x) :
    (f.place graph colors).Returns x := by
  have hparallel : f.Parallel (f.place graph colors) := by
    refine ⟨hf.tractable.inputs, fun c hc => ?_, by simp [place, size]⟩
    rcases List.mem_map.mp hc with ⟨b, hb, rfl⟩
    exact hf.tractable.inputs b hb
  have hcode : ∀ b block, f.blocks[b]? = some block →
      (f.place graph colors).codeOf b = block.code.map (Instr.mapRegs (colors.place graph)) := by
    intro b block hb
    simp [codeOf, place, hb]
  -- At block entries the stores agree on what the block wants.
  refine returns_of_simulation (R := fun b s t => f.Ready b s ∧ ∀ block,
    f.blocks[b]? = some block → f.Carried (colors.place graph) b block 0 s t)
    ⟨ready_empty hf.inputsOf_entry, fun block _ => ⟨fun _ _ _ h => ?_, fun _ => rfl⟩⟩ ?_ ?_ hx
  · exact absurd h (by simp [Store.empty])
  · rintro b s t y ⟨hready, hcarried⟩ hdone
    rcases exists_block_of_leave hdone with ⟨block, hb, hdone⟩
    rcases hf.leave_place hρ hparallel hb (hcode b block hb) (hcarried block hb) hdone with
      ⟨e', s', t', he', halike, _⟩
    cases halike
    exact he'
  · rintro b s t s' c ⟨hready, hcarried⟩ henter
    rcases hready.enter hf.runnable henter with ⟨hready', hc⟩
    rcases exists_block_of_leave henter with ⟨block, hb, henter⟩
    rcases hf.leave_place hρ hparallel hb (hcode b block hb) (hcarried block hb) henter with
      ⟨e', u, t', he', halike, hcarried'⟩
    cases halike
    refine ⟨t', .direct he', hready', fun target htarget => ?_⟩
    refine hcarried'.enter hf.tractable.inputs (fun r => ?_) hc htarget
    rintro ⟨j, i, hj, hi, hdef⟩
    simp [hf.tractable.defs_eq_nil (List.mem_of_getElem? hb) hj hi] at hdef

end Workable

end Function

end RegisterColoring
