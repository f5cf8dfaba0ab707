import RegisterColoring.Proofs.Lowered

/-!
# Runs of Copies

A run of copies written one after the other is one assignment made at once, as
long as no copy reads what another writes and copies to one register copy the same
operand. That is all the order of copies can spoil, and staging registers
rule it out: they are new, so no argument reads one, and each belongs to one input.

The copies before the terminators of a block serve several branches. Their
targets are different blocks, with different inputs, and a target that two
branches share is contested and has no copies there.

Code whose registers two stores agree on does the same from both, whichever
function it stands in.

## Main definitions

* `Store.AgreeOn`: Two stores have the same slots and the same values of some registers.
* `Branch.moves`: The copies of a branch as pairs.

## Theorems

* `Function.pass_copies`: A run of copies is one assignment.
* `Function.pass_agree`: Code passes the same way from stores that agree.
* `Function.moves_functional`: Copies before terminators do not collide.
-/

namespace RegisterColoring

variable {M : Machine}

/-- The slots of two stores are equal, and so are the registers for which `P` holds. -/
structure Store.AgreeOn (P : Register M → Prop) (s t : Store M) : Prop where
  slots : t.slots = s.slots
  regs : ∀ r, P r → t.regs r = s.regs r

/-- The register is physical or its id lies below `n`. -/
def Register.Below (n : Nat) : Register M → Prop
  | .virtual v => v.id < n
  | .physical _ => True

/-- The copy that a pair of a register and an operand stands for. -/
def copyOf (move : VReg M × Operand M) : Instr M :=
  copyTo move.1 move.2

/-- The copies of the arguments of a branch, as pairs. -/
def Branch.moves (f : Function M) (staging : Staging M) (branch : Branch M) :
    List (VReg M × Operand M) :=
  ((f.inputsOf branch.target).zip branch.args).map fun p => (stageOf staging p.1, p.2)

theorem copyTo_regular (v : VReg M) (u : Operand M) : (copyTo v u).Regular :=
  .copy (.virtual v) [u]

theorem copies_regular {moves : List (VReg M × Operand M)} :
    ∀ i ∈ moves.map copyOf, i.Regular := by
  intro i hi
  rcases List.mem_map.mp hi with ⟨p, _, rfl⟩
  exact copyTo_regular p.1 p.2

theorem copies_not_terminator {moves : List (VReg M × Operand M)} :
    ∀ i ∈ moves.map copyOf, i.isTerminator = false := by
  intro i hi
  rcases List.mem_map.mp hi with ⟨p, _, rfl⟩
  rfl

theorem Store.value_setReg_of_ne (s : Store M) {v : VReg M} {x : Int64} {u : Operand M}
    (hu : u ≠ .ofVReg v) : (s.setReg (.virtual v) x).value? u = s.value? u := by
  cases u with
  | reg r =>
      have hr : r ≠ .virtual v := fun h => hu (by rw [h]; rfl)
      simp only [Store.value?, Store.regs_setReg, if_neg hr]
  | imm y => rfl
  | frame slot offset => rfl
  | global name => rfl
  | block target => rfl

namespace Store.AgreeOn

variable {P : Register M → Prop} {s t : Store M}

theorem value (h : AgreeOn P s t) {u : Operand M} (hu : ∀ r, u = .reg r → P r) :
    t.value? u = s.value? u := by
  cases u with
  | reg r => exact h.regs r (hu r rfl)
  | imm y => rfl
  | frame slot offset => rfl
  | global name => rfl
  | block target => rfl

theorem operand (h : AgreeOn P s t) {i : Instr M} (hi : ∀ r ∈ i.reads, P r) (k : Nat) :
    i.operand? t k = i.operand? s k := by
  unfold Instr.operand?
  cases hk : i.uses[k]? with
  | none => rfl
  | some u =>
      refine h.value fun r hr => hi r (Instr.mem_reads.mpr ?_)
      rw [← hr]
      exact List.mem_of_getElem? hk

theorem setReg (h : AgreeOn P s t) (r : Register M) (x : Int64) :
    AgreeOn P (s.setReg r x) (t.setReg r x) := by
  refine ⟨h.slots, fun q hq => ?_⟩
  rw [Store.regs_setReg, Store.regs_setReg, h.regs q hq]

theorem setSlot (h : AgreeOn P s t) (k : Nat) (x : Int64) :
    AgreeOn P (s.setSlot k x) (t.setSlot k x) := by
  refine ⟨funext fun j => ?_, fun q hq => h.regs q hq⟩
  rw [Store.slots_setSlot, Store.slots_setSlot, h.slots]

theorem result (h : AgreeOn P s t) {i : Instr M} (hi : ∀ r ∈ i.reads, P r) :
    i.result? t = i.result? s := by
  have hoperand := h.operand hi
  refine Option.ext fun x => ⟨fun hx => ?_, fun hx => ?_⟩
  · refine Instr.result_mono rfl rfl (fun k y hy => ?_) (fun k y _ hy => ?_) hx
    · rw [← hoperand k]
      exact hy
    · rw [← h.slots]
      exact hy
  · refine Instr.result_mono rfl rfl (fun k y hy => ?_) (fun k y _ hy => ?_) hx
    · rw [hoperand k]
      exact hy
    · rw [h.slots]
      exact hy

theorem saved (h : AgreeOn P s t) {i : Instr M} (hi : ∀ r ∈ i.reads, P r) :
    i.saved? t = i.saved? s := by
  unfold Instr.saved?
  rw [h.operand hi]

end Store.AgreeOn

namespace Function

variable {f g : Function M} {staging : Staging M} {n : Nat}

/-- Straight-line code passes the same way from stores that agree on its registers. -/
theorem pass_agree {P : Register M → Prop} {code : List (Instr M)}
    (hreg : ∀ i ∈ code, i.Regular) (hterm : ∀ i ∈ code, i.isTerminator = false)
    (hreads : ∀ i ∈ code, ∀ r ∈ i.reads, P r) {s t : Store M} (h : s.AgreeOn P t) :
    (f.pass? s code = none ∧ g.pass? t code = none) ∨
      ∃ s' t', f.pass? s code = some s' ∧ g.pass? t code = some t' ∧ s'.AgreeOn P t' := by
  induction code generalizing s t with
  | nil => exact Or.inr ⟨s, t, rfl, rfl, h⟩
  | cons i code ih =>
      have ih' := fun s t => ih (s := s) (t := t) (fun j hj => hreg j (by simp [hj]))
        (fun j hj => hterm j (by simp [hj])) (fun j hj => hreads j (by simp [hj]))
      have hi := hreads i (by simp)
      simp only [pass?]
      rcases Instr.effect_of_regular (hreg i (by simp)) (hterm i (by simp)) f s with
        ⟨d, hop, hdefs, heff⟩ | ⟨hop, hdefs, heff⟩
      · -- The same instruction stands in both functions, so the cases agree.
        rcases Instr.effect_of_regular (hreg i (by simp)) (hterm i (by simp)) g t with
          ⟨d', _, hdefs', heff'⟩ | ⟨hop', _, _⟩
        · rw [hdefs, List.cons.injEq] at hdefs'
          rw [heff, heff', h.result hi, hdefs'.1]
          cases i.result? s with
          | none => exact Or.inl ⟨rfl, rfl⟩
          | some x => exact ih' _ _ (h.setReg d' x)
        · exact absurd hop' hop
      · rcases Instr.effect_of_regular (hreg i (by simp)) (hterm i (by simp)) g t with
          ⟨_, hop', _, _⟩ | ⟨_, _, heff'⟩
        · exact absurd hop hop'
        · rw [heff, heff', h.saved hi]
          cases i.saved? s with
          | none => exact Or.inl ⟨rfl, rfl⟩
          | some kx => exact ih' _ _ (h.setSlot kx.1 kx.2)

/-- A run of copies of which none reads what another writes, and in which copies to
    one register agree, is one assignment. -/
theorem pass_copies (f : Function M) (moves : List (VReg M × Operand M)) (s : Store M)
    (hread : ∀ p ∈ moves, ∀ q ∈ moves, q.2 ≠ .ofVReg p.1)
    (hsome : ∀ p ∈ moves, (s.value? p.2).isSome)
    (hfun : ∀ p ∈ moves, ∀ q ∈ moves, p.1 = q.1 → p.2 = q.2) :
    ∃ t, f.pass? s (moves.map copyOf) = some t ∧ t.slots = s.slots ∧
      (∀ p ∈ moves, t.regs (.virtual p.1) = s.value? p.2) ∧
        ∀ r, (∀ p ∈ moves, r ≠ .virtual p.1) → t.regs r = s.regs r := by
  induction moves generalizing s with
  | nil => exact ⟨s, rfl, rfl, by simp, fun r _ => rfl⟩
  | cons p rest ih =>
      rcases Option.isSome_iff_exists.mp (hsome p (by simp)) with ⟨x, hx⟩
      -- The first copy writes nothing that a later one reads.
      have hsame : ∀ q ∈ rest, (s.setReg (.virtual p.1) x).value? q.2 = s.value? q.2 :=
        fun q hq => s.value_setReg_of_ne (hread p (by simp) q (by simp [hq]))
      rcases ih (s.setReg (.virtual p.1) x)
          (fun a ha b hb => hread a (by simp [ha]) b (by simp [hb]))
          (fun q hq => by rw [hsame q hq]; exact hsome q (by simp [hq]))
          (fun a ha b hb => hfun a (by simp [ha]) b (by simp [hb]))
        with ⟨t, hpass, hslots, hwritten, hkept⟩
      have heff : (copyOf p).effect? f s = some (.next (s.setReg (.virtual p.1) x)) := by
        change ((some p.2).bind s.value?).bind _ = _
        rw [Option.bind_some, hx]
        rfl
      refine ⟨t, ?_, hslots, fun q hq => ?_, fun r hr => ?_⟩
      · rw [List.map_cons]
        simp only [pass?, heff]
        exact hpass
      · rcases List.mem_cons.mp hq with rfl | hq
        · -- A later copy to the same register copies the same operand.
          by_cases hlater : ∃ a ∈ rest, a.1 = q.1
          · rcases hlater with ⟨a, ha, heq⟩
            rw [← heq, hwritten a ha, hsame a ha, hfun a (by simp [ha]) q (by simp) heq]
          · have hnone : ∀ a ∈ rest, (Register.virtual q.1 : Register M) ≠ .virtual a.1 := by
              intro a ha heq
              rw [Register.virtual.injEq] at heq
              exact hlater ⟨a, ha, heq.symm⟩
            rw [hkept _ hnone, Store.regs_setReg, if_pos rfl, hx]
        · rw [hwritten q hq, hsame q hq]
      · rw [hkept r fun a ha => hr a (by simp [ha]), Store.regs_setReg, if_neg (hr p (by simp))]

/-- Copies are passed before what follows them. -/
theorem leave_copies (f : Function M) (s : Store M) (moves : List (VReg M × Operand M))
    (rest : List (Instr M)) :
    f.leave? s (moves.map copyOf ++ rest) =
      (f.pass? s (moves.map copyOf)).bind fun t => f.leave? t rest :=
  leave_append copies_regular copies_not_terminator s rest

theorem IdsBelow.below (h : f.IdsBelow n) {r : Register M} (hr : r ∈ f.registers) : r.Below n := by
  cases r with
  | virtual v => exact h v hr
  | physical p => trivial

end Function

namespace Staging.Apart

variable {f : Function M} {staging : Staging M} {n : Nat}

theorem lookup_stageOf (h : staging.Apart f n) {b : Nat} {v : VReg M} (hv : v ∈ f.inputsOf b) :
    staging.lookup v.id = some (stageOf staging v) := by
  rcases Function.mem_inputsOf hv with ⟨block, hblock, hin⟩
  rcases h.found block (List.mem_of_getElem? hblock) v hin with ⟨w, hw⟩
  simp [stageOf, hw]

theorem stageOf_above (h : staging.Apart f n) {b : Nat} {v : VReg M} (hv : v ∈ f.inputsOf b) :
    n ≤ (stageOf staging v).id :=
  h.above v.id _ (h.lookup_stageOf hv)

theorem not_below (h : staging.Apart f n) {b : Nat} {v : VReg M} (hv : v ∈ f.inputsOf b) :
    ¬ (Register.virtual (stageOf staging v)).Below n := by
  intro hbelow
  exact absurd (h.stageOf_above hv) (Nat.not_le.mpr hbelow)

/-- Inputs share a staging register only if they are the same. -/
theorem eq_of_stageOf (h : staging.Apart f n) (hinputs : f.InputsApart) {b c : Nat} {v w : VReg M}
    (hv : v ∈ f.inputsOf b) (hw : w ∈ f.inputsOf c)
    (heq : stageOf staging v = stageOf staging w) : b = c ∧ v = w := by
  have hid : v.id = w.id :=
    h.apart v.id w.id _ _ (h.lookup_stageOf hv) (h.lookup_stageOf hw) (by rw [heq])
  exact hinputs.apart b c v w hv hw hid

theorem fetchCopies_eq (h : staging.Apart f n) (b : Nat) :
    fetchCopies staging (f.inputsOf b) =
      ((f.inputsOf b).map fun v => (v, Operand.ofVReg (stageOf staging v))).map copyOf := by
  unfold fetchCopies
  rw [List.map_map, ← List.filterMap_eq_map]
  refine List.filterMap_congr fun v hv => ?_
  rw [h.lookup_stageOf hv]
  rfl

theorem copies_eq (h : staging.Apart f n) (branch : Branch M) :
    branch.copies f staging = (branch.moves f staging).map copyOf := by
  unfold Branch.copies Branch.moves stageCopies
  rw [List.map_map, ← List.filterMap_eq_map]
  refine List.filterMap_congr fun p hp => ?_
  obtain ⟨v, u⟩ := p
  simp only [h.lookup_stageOf (List.of_mem_zip hp).1]
  rfl

theorem copiesAhead_eq (h : staging.Apart f n) (contested : Nat → Bool)
    (branches : List (Branch M)) :
    copiesAhead f staging contested branches =
      ((branches.filter (Branch.isAhead f contested)).flatMap (Branch.moves f staging)).map
        copyOf := by
  unfold copiesAhead
  rw [List.map_flatMap]
  exact List.flatMap_congr fun branch _ => h.copies_eq branch

end Staging.Apart

theorem Branch.mem_moves {f : Function M} {staging : Staging M} {branch : Branch M}
    {p : VReg M × Operand M} :
    p ∈ branch.moves f staging ↔
      ∃ v u, (v, u) ∈ (f.inputsOf branch.target).zip branch.args ∧ p = (stageOf staging v, u) := by
  unfold Branch.moves
  rw [List.mem_map]
  constructor
  · rintro ⟨⟨v, u⟩, hmem, rfl⟩
    exact ⟨v, u, hmem, rfl⟩
  · rintro ⟨v, u, hmem, rfl⟩
    exact ⟨(v, u), hmem, rfl⟩

/-- Different elements that give the same value make it occur twice. -/
theorem eq_of_count_le_one {α : Type} {key : α → Nat} {l : List α} {a b : α}
    (hcount : (l.map key).count (key a) ≤ 1) (ha : a ∈ l) (hb : b ∈ l) (hkey : key b = key a) :
    a = b := by
  induction l with
  | nil => exact absurd ha (by simp)
  | cons c l ih =>
      rw [List.map_cons, List.count_cons] at hcount
      have hpos : ∀ e ∈ l, key e = key a → 0 < (l.map key).count (key a) :=
        fun e he hkey' => List.count_pos_iff.mpr (List.mem_map.mpr ⟨e, he, hkey'⟩)
      by_cases hc : key c = key a
      · -- The head has the key already, so nothing behind it does.
        have hzero : ¬ 0 < (l.map key).count (key a) := by
          simp only [hc, beq_self_eq_true, if_true] at hcount
          omega
        have honly : ∀ e ∈ c :: l, key e = key a → e = c := by
          intro e he hkey'
          rcases List.mem_cons.mp he with rfl | he
          · rfl
          · exact absurd (hpos e he hkey') hzero
        rw [honly a ha rfl, honly b hb hkey]
      · -- The head has another key: both are behind it.
        have hne : ∀ e ∈ c :: l, key e = key a → e ∈ l := by
          intro e he hkey'
          rcases List.mem_cons.mp he with rfl | he
          · exact absurd hkey' hc
          · exact he
        exact ih (by omega) (hne a ha rfl) (hne b hb hkey)

/-- With different elements on the left, a zip pairs each with one thing. -/
theorem eq_of_mem_zip {α β : Type} {l : List α} {l' : List β} (hnodup : l.Nodup) {a : α}
    {x y : β} (hx : (a, x) ∈ l.zip l') (hy : (a, y) ∈ l.zip l') : x = y := by
  induction l generalizing l' with
  | nil => exact absurd hx (by simp)
  | cons b l ih =>
      cases l' with
      | nil => exact absurd hx (by simp)
      | cons z l' =>
          have hsplit := List.nodup_cons.mp hnodup
          rw [List.zip_cons_cons, List.mem_cons] at hx hy
          rcases hx with hx | hx
          · rcases hy with hy | hy
            · rw [Prod.mk.injEq] at hx hy
              rw [hx.2, hy.2]
            · rw [Prod.mk.injEq] at hx
              -- The first entry would come once more.
              exact absurd (hx.1 ▸ (List.of_mem_zip hy).1) hsplit.1
          · rcases hy with hy | hy
            · rw [Prod.mk.injEq] at hy
              exact absurd (hy.1 ▸ (List.of_mem_zip hx).1) hsplit.1
            · exact ih hsplit.2 hx hy

theorem Block.not_contests {b : Block M} {target : Nat} (h : b.contests target = false) :
    ((b.run.flatMap Instr.branches).map Branch.target).count target ≤ 1 := by
  have hrefs : b.run.flatMap Instr.references =
      (b.run.flatMap Instr.branches).map Branch.target := by
    rw [List.map_flatMap]
    exact List.flatMap_congr fun i _ => i.references_eq
  unfold Block.contests below at h
  rw [hrefs] at h
  simpa using h

namespace Function

variable {f : Function M} {staging : Staging M} {n : Nat}

/-- The copies before the terminators of a block do not collide: each staging
    register is written from one operand. -/
theorem moves_functional (happ : staging.Apart f n) (hinputs : f.InputsApart) {block : Block M}
    {p q : VReg M × Operand M}
    (hp : p ∈ ((block.run.flatMap Instr.branches).filter
      (Branch.isAhead f block.contests)).flatMap (Branch.moves f staging))
    (hq : q ∈ ((block.run.flatMap Instr.branches).filter
      (Branch.isAhead f block.contests)).flatMap (Branch.moves f staging))
    (heq : p.1 = q.1) : p.2 = q.2 := by
  rcases List.mem_flatMap.mp hp with ⟨one, hone, hmove⟩
  rcases List.mem_flatMap.mp hq with ⟨two, htwo, hmove'⟩
  rcases Branch.mem_moves.mp hmove with ⟨v, u, hv, rfl⟩
  rcases Branch.mem_moves.mp hmove' with ⟨w, x, hw, rfl⟩
  rcases List.mem_filter.mp hone with ⟨hone, hahead⟩
  rcases List.mem_filter.mp htwo with ⟨htwo, _⟩
  rcases happ.eq_of_stageOf hinputs (List.of_mem_zip hv).1 (List.of_mem_zip hw).1 heq with
    ⟨htarget, rfl⟩
  -- One input is one target, and that occurs once among the branches.
  have hfree : block.contests one.target = false := by
    simp only [Branch.isAhead, Bool.and_eq_true, Bool.not_eq_true'] at hahead
    exact hahead.2
  have hsame : one = two :=
    eq_of_count_le_one (Block.not_contests hfree) hone htwo htarget.symm
  subst hsame
  exact eq_of_mem_zip (hinputs.nodup one.target) hv hw

end Function

end RegisterColoring
