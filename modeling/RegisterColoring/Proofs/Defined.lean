import RegisterColoring.Proofs.Straight

/-!
# Written Before Read

A function in single assignment form never reads what was not written, and the
passes that move code rely on more than that: a value may be read earlier than
before, in front of jumps that would have left the block. What makes this safe is
that at the start of a block the registers written on all walks there hold values
already, whichever walk the run took.

`Function.Available` collects those registers. It is a statement about walks and
needs no analysis: a register available in a successor is available in the block
itself or written there, because a walk to the block goes on to the successor.
`Function.Ready` says of a store that they hold values, and the stay in a block
keeps that true for the next one.

## Main definitions

* `Block.Defines`, `Block.DefinesBefore`: What a block writes.
* `Function.Available`: Written on every walk to a block.
* `Function.Strict`: Every read of a register comes after a write.
* `Function.OneClass`: An id stands for one register.
* `Function.Names`: The id of a register stands for no other where it is written.
* `Function.Runnable`: Code whose run does what its registers promise.
* `Function.Ready`: The registers available in a block hold values.

## Theorems

* `Function.available_next`: What is available in a successor.
* `Function.SingleAssignment.strict`: Single assignment form is strict.
* `Function.SingleAssignment.names`: The id of a written register names it.
* `Function.isSome_of_ready`: What is defined in a block holds a value after its body.
* `Function.Ready.enter`: The next block starts ready.
-/

namespace RegisterColoring

variable {M : Machine}

/-- The block writes register `r`, as an input or by an instruction. -/
def Block.Defines (b : Block M) (r : Register M) : Prop :=
  (∃ v ∈ b.inputs, r = .virtual v) ∨ ∃ i ∈ b.code, r ∈ i.defs

instance (b : Block M) (r : Register M) : Decidable (b.Defines r) :=
  inferInstanceAs (Decidable ((∃ v ∈ b.inputs, r = .virtual v) ∨ ∃ i ∈ b.code, r ∈ i.defs))

/-- The block writes register `r` before instruction `k`. -/
def Block.DefinesBefore (b : Block M) (k : Nat) (r : Register M) : Prop :=
  (∃ v ∈ b.inputs, r = .virtual v) ∨ ∃ i ∈ b.code.take k, r ∈ i.defs

namespace Function

/-- Block `c` of the function writes register `r`. -/
def Defines (f : Function M) (c : Nat) (r : Register M) : Prop :=
  ∃ block, f.blocks[c]? = some block ∧ block.Defines r

instance (f : Function M) (c : Nat) (r : Register M) : Decidable (f.Defines c r) :=
  decidable_of_iff (∃ block ∈ f.blocks[c]?, block.Defines r) Iff.rfl

/-- Every walk to block `b` goes through a block that writes `r`. -/
def Available (f : Function M) (b : Nat) (r : Register M) : Prop :=
  ∀ path, Walk f.next path b → ∃ c ∈ path, f.Defines c r

/-- Wherever `r` is read, it was written: earlier in the block or on all walks
    to the block. -/
def Strict (f : Function M) (r : Register M) : Prop :=
  ∀ b block k i, f.blocks[b]? = some block → block.code[k]? = some i → r ∈ i.reads →
    block.DefinesBefore k r ∨ f.Available b r

/-- No two registers of the function share an id. -/
def OneClass (f : Function M) : Prop :=
  ∀ v w : VReg M, .virtual v ∈ f.registers → .virtual w ∈ f.registers → v.id = w.id → v = w

/-- Blocks that are closed, jumps that fit, and instructions that write what they list. -/
structure Runnable (f : Function M) : Prop where
  terminated : ∀ b ∈ f.blocks, b.Terminated
  regular : ∀ b ∈ f.blocks, ∀ i ∈ b.code, i.Regular
  fits : ∀ b ∈ f.blocks, ∀ i ∈ b.run, ∀ branch ∈ i.branches, branch.Fits f

/-- The inputs of block `b` and all that is available there hold values. -/
def Ready (f : Function M) (b : Nat) (s : Store M) : Prop :=
  ∀ r, (∃ v ∈ f.inputsOf b, r = .virtual v) ∨ f.Available b r → (s.regs r).isSome

/-- The virtual registers that the function mentions. -/
def vregs (f : Function M) : List (VReg M) :=
  f.registers.filterMap Register.virtual?

theorem mem_vregs {f : Function M} {v : VReg M} : v ∈ f.vregs ↔ .virtual v ∈ f.registers :=
  Register.mem_virtuals

instance (f : Function M) : Decidable f.OneClass :=
  decidable_of_iff (∀ v ∈ f.vregs, ∀ w ∈ f.vregs, v.id = w.id → v = w)
    ⟨fun h v w hv hw => h v (mem_vregs.mpr hv) w (mem_vregs.mpr hw),
      fun h v hv w hw => h v w (mem_vregs.mp hv) (mem_vregs.mp hw)⟩

variable {f : Function M}

theorem not_available_entry (r : Register M) : ¬ f.Available 0 r := by
  intro h
  rcases h [] .start with ⟨c, hc, _⟩
  exact absurd hc (by simp)

/-- A walk to a block goes on to its successor, so what is available there was
    written in the block or is available in it. -/
theorem available_next {b c : Nat} {r : Register M} (hc : c ∈ f.next b) (h : f.Available c r) :
    f.Defines b r ∨ f.Available b r := by
  by_cases hb : f.Defines b r
  · exact Or.inl hb
  · refine Or.inr fun path hwalk => ?_
    rcases h (b :: path) (.step hwalk hc) with ⟨d, hd, hdef⟩
    rcases List.mem_cons.mp hd with rfl | hd
    · exact absurd hdef hb
    · exact ⟨d, hd, hdef⟩

theorem mem_instructions {block : Block M} (hblock : block ∈ f.blocks) {i : Instr M}
    (hi : i ∈ block.code) : i ∈ f.instructions :=
  List.mem_flatMap.mpr ⟨block, hblock, hi⟩

theorem mem_registers {r : Register M} :
    r ∈ f.registers ↔ ∃ b ∈ f.blocks, (∃ v ∈ b.inputs, r = .virtual v) ∨
      ∃ i ∈ b.code, r ∈ i.defs ∨ r ∈ i.reads := by
  simp only [registers, Block.registers, Instr.registers, List.mem_flatMap, List.mem_append,
    List.mem_map, eq_comm]

theorem mem_registers_of_input {b : Block M} (hb : b ∈ f.blocks) {v : VReg M}
    (hv : v ∈ b.inputs) : .virtual v ∈ f.registers :=
  mem_registers.mpr ⟨b, hb, Or.inl ⟨v, hv, rfl⟩⟩

theorem mem_registers_of_instr {b : Block M} (hb : b ∈ f.blocks) {i : Instr M} (hi : i ∈ b.code)
    {r : Register M} (hr : r ∈ i.defs ∨ r ∈ i.reads) : r ∈ f.registers :=
  mem_registers.mpr ⟨b, hb, Or.inr ⟨i, hi, hr⟩⟩

/-- If an id stands for one register, an id that a block defines is a register
    that it writes. -/
theorem OneClass.defines (hone : f.OneClass) {b : Block M} (hb : b ∈ f.blocks) {k : Nat}
    {v : VReg M} (hv : .virtual v ∈ f.registers) (h : v.id ∈ b.idsBefore k) :
    b.DefinesBefore k (.virtual v) := by
  rcases List.mem_append.mp h with hinput | hcode
  · rcases List.mem_map.mp hinput with ⟨w, hw, hid⟩
    have heq : w = v := hone w v (mem_registers_of_input hb hw) hv hid
    exact Or.inl ⟨w, hw, by rw [heq]⟩
  · rcases List.mem_flatMap.mp hcode with ⟨i, hi, hdef⟩
    rcases Instr.mem_defIds.mp hdef with ⟨w, hw, hid⟩
    have hmem := mem_registers_of_instr hb (List.mem_of_mem_take hi) (Or.inl hw)
    have heq : w = v := hone w v hmem hv hid
    exact Or.inr ⟨i, hi, heq ▸ hw⟩

theorem defines_of_definesBefore {b : Block M} {k : Nat} {r : Register M}
    (h : b.DefinesBefore k r) : b.Defines r := by
  rcases h with hinput | ⟨i, hi, hr⟩
  · exact Or.inl hinput
  · exact Or.inr ⟨i, List.mem_of_mem_take hi, hr⟩

theorem mem_ids_iff {b : Block M} {r : Nat} : r ∈ b.ids ↔ r ∈ b.idsBefore b.code.length := by
  unfold Block.ids Block.idsBefore
  rw [List.take_length]

/-- A block that defines the id of `v` writes `v` and no register of another class. -/
def Names (f : Function M) (v : VReg M) : Prop :=
  ∀ block ∈ f.blocks, ∀ k, v.id ∈ block.idsBefore k → block.DefinesBefore k (.virtual v)

/-- In single assignment form, a virtual register that its id names is written
    before it is read. -/
theorem SingleAssignment.strict_of_names (h : f.SingleAssignment) {v : VReg M}
    (hnames : f.Names v) : f.Strict (.virtual v) := by
  intro b block k i hb hk hread
  have hid : v.id ∈ i.readIds := Instr.mem_readIds.mpr ⟨v, hread, rfl⟩
  by_cases hbefore : v.id ∈ block.idsBefore k
  · exact Or.inl (hnames block (List.mem_of_getElem? hb) k hbefore)
  · refine Or.inr fun path hwalk => ?_
    rcases (h.defined_of_walk hwalk hb hk hid).resolve_left hbefore with
      ⟨c, hc, earlier, hearlier, hdef⟩
    have hdefines := hnames earlier (List.mem_of_getElem? hearlier) _ (mem_ids_iff.mp hdef)
    exact ⟨c, hc, earlier, hearlier, defines_of_definesBefore hdefines⟩

theorem SingleAssignment.strict (h : f.SingleAssignment) (hone : f.OneClass) (v : VReg M) :
    f.Strict (.virtual v) := by
  by_cases hv : .virtual v ∈ f.registers
  · exact h.strict_of_names fun block hblock k hid => hone.defines hblock hv hid
  · -- A register that does not occur is not read.
    intro b block k i hb hk hread
    exact absurd (mem_registers_of_instr (List.mem_of_getElem? hb) (List.mem_of_getElem? hk)
      (Or.inr hread)) hv

/-- The virtual registers that a block writes before instruction `k`. -/
def writtenBefore (b : Block M) (k : Nat) : List (VReg M) :=
  b.inputs ++ (b.code.take k).flatMap fun i => i.defs.filterMap Register.virtual?

theorem map_id_writtenBefore (b : Block M) (k : Nat) :
    (writtenBefore b k).map VReg.id = b.idsBefore k := by
  unfold writtenBefore Block.idsBefore
  rw [List.map_append, List.map_flatMap]
  rfl

theorem mem_writtenBefore {b : Block M} {k : Nat} {v : VReg M} :
    v ∈ writtenBefore b k ↔ b.DefinesBefore k (.virtual v) := by
  unfold writtenBefore Block.DefinesBefore
  simp only [List.mem_append, List.mem_flatMap, Register.mem_virtuals, Register.virtual.injEq,
    exists_eq_right']

/-- Before the end of its code, a block has written all that it writes. -/
theorem mem_writtenBefore_length {b : Block M} {v : VReg M} :
    v ∈ writtenBefore b b.code.length ↔ b.Defines (.virtual v) := by
  rw [mem_writtenBefore, Block.DefinesBefore, List.take_length]
  rfl

theorem ids_eq (b : Block M) : b.ids = (writtenBefore b b.code.length).map VReg.id := by
  rw [map_id_writtenBefore, Block.ids, Block.idsBefore, List.take_length]

theorem mem_ids_of_defines {b : Block M} {v : VReg M} (h : b.Defines (.virtual v)) :
    v.id ∈ b.ids := by
  rw [ids_eq]
  exact List.mem_map_of_mem (mem_writtenBefore_length.mpr h)

/-- In single assignment form, a virtual register is written in one block. -/
theorem SingleAssignment.defines_unique (h : f.SingleAssignment) {v : VReg M} {c d : Nat}
    (hc : f.Defines c (.virtual v)) (hd : f.Defines d (.virtual v)) : c = d := by
  rcases hc with ⟨block, hblock, hdef⟩
  rcases hd with ⟨other, hother, hdef'⟩
  exact h.block_unique hblock hother (mem_ids_of_defines hdef) (mem_ids_of_defines hdef')

/-- In single assignment form, the id of a written register names it. -/
theorem SingleAssignment.names (h : f.SingleAssignment) {v : VReg M} {c : Nat}
    (hdef : f.Defines c (.virtual v)) : f.Names v := by
  rcases hdef with ⟨block, hblock, hdef⟩
  intro other hother k hk
  rw [← map_id_writtenBefore] at hk
  rcases List.mem_map.mp hk with ⟨w, hw, hid⟩
  have hwdef := defines_of_definesBefore (mem_writtenBefore.mp hw)
  -- Another block cannot define the id, and the ids of one block are different.
  rcases List.getElem?_of_mem hother with ⟨d, hd⟩
  obtain rfl := h.block_unique hblock hd (mem_ids_of_defines hdef) (hid ▸ mem_ids_of_defines hwdef)
  obtain rfl : block = other := by
    rw [hblock] at hd
    exact Option.some.inj hd
  have hnodup := h.ids_nodup hother
  rw [ids_eq] at hnodup
  have hwv : w = v := List.inj_on_of_nodup_map hnodup (mem_writtenBefore_length.mpr hwdef)
    (mem_writtenBefore_length.mpr hdef) hid
  exact mem_writtenBefore.mp (hwv ▸ hw)

theorem count_virtual_le_one {l : List (Register M)} (h : (l.filterMap Register.virtual?).Nodup)
    (v : VReg M) : l.count (.virtual v) ≤ 1 := by
  induction l with
  | nil => simp
  | cons r l ih =>
      cases r with
      | physical p =>
          rw [List.count_cons_of_ne (by simp)]
          exact ih h
      | virtual w =>
          have h : (w :: l.filterMap Register.virtual?).Nodup := h
          rw [List.nodup_cons] at h
          by_cases hwv : w = v
          · -- The head is the register, and it does not come again.
            subst hwv
            have hnot : .virtual w ∉ l := fun hw => h.1 (Register.mem_virtuals.mpr hw)
            simp [List.count_eq_zero_of_not_mem hnot]
          · rw [List.count_cons_of_ne (by simpa using hwv)]
            exact ih h.2

/-- In single assignment form, an instruction writes a register once. -/
theorem SingleAssignment.count_defs (h : f.SingleAssignment) {b : Block M} (hb : b ∈ f.blocks)
    {i : Instr M} (hi : i ∈ b.code) (v : VReg M) : i.defs.count (.virtual v) ≤ 1 := by
  rcases List.getElem?_of_mem hi with ⟨k, hk⟩
  have hnodup := ((Block.ids_nodup_iff.mp (h.ids_nodup hb)).2 k i hk).1
  exact count_virtual_le_one hnodup.of_map v

/-- In single assignment form, no instruction reads a register that it writes: on a
    simple walk there is no earlier write. -/
theorem SingleAssignment.reads_apart (h : f.SingleAssignment) {b : Nat} {block : Block M}
    (hb : f.blocks[b]? = some block) {i : Instr M} (hi : i ∈ block.code) {v : VReg M}
    (hdef : .virtual v ∈ i.defs) : .virtual v ∉ i.reads := by
  intro hread
  rcases List.getElem?_of_mem hi with ⟨k, hk⟩
  have hmem := List.mem_of_getElem? hb
  have hid : v.id ∈ i.defIds := Instr.mem_defIds.mpr ⟨v, hdef, rfl⟩
  rcases h.exists_walk (List.getElem?_eq_some_iff.mp hb).1 with ⟨path, hwalk⟩
  rcases hwalk.shorten with ⟨short, hshort, hsimple, _⟩
  rcases h.defined_of_walk hshort hb hk (Instr.mem_readIds.mpr ⟨v, hread, rfl⟩) with
    hbefore | ⟨c, hc, other, hother, hdefines⟩
  · exact ((Block.ids_nodup_iff.mp (h.ids_nodup hmem)).2 k i hk).2 v.id hid hbefore
  · -- Only this block defines the id, and the simple path has not been here.
    have hhere : v.id ∈ block.ids := mem_ids_of_defines (Or.inr ⟨i, hi, hdef⟩)
    obtain rfl := h.block_unique hb hother hhere hdefines
    exact (List.nodup_cons.mp hsimple).1 hc

theorem inputsOf_eq {b : Nat} {block : Block M} (hb : f.blocks[b]? = some block) :
    f.inputsOf b = block.inputs := by
  simp [inputsOf, hb]

theorem codeOf_eq {b : Nat} {block : Block M} (hb : f.blocks[b]? = some block) :
    f.codeOf b = block.code := by
  simp [codeOf, hb]

/-- Only blocks can be left. -/
theorem exists_block_of_leave {b : Nat} {s : Store M} {e : Exit M}
    (h : f.leave? s (f.codeOf b) = some e) :
    ∃ block, f.blocks[b]? = some block ∧ f.leave? s block.code = some e := by
  cases hb : f.blocks[b]? with
  | none => exact absurd h (by simp [codeOf, hb, leave?])
  | some block => exact ⟨block, rfl, by rw [← codeOf_eq hb]; exact h⟩

theorem ready_empty (hentry : f.inputsOf 0 = []) : f.Ready 0 .empty := by
  intro r hr
  rw [hentry] at hr
  rcases hr with ⟨v, hv, _⟩ | havail
  · exact absurd hv (by simp)
  · exact absurd havail (not_available_entry r)

namespace Runnable

/-- Terminators write no register. -/
theorem defs_of_run (h : f.Runnable) {b : Block M} (hb : b ∈ f.blocks) {i : Instr M}
    (hi : i ∈ b.run) : i.defs = [] := by
  have hterm := Block.isTerminator_of_mem_run hi
  cases h.regular b hb i (Block.mem_code_iff.mpr (Or.inr hi)) with
  | copy d uses => exact absurd hterm Bool.false_ne_true
  | arith o ho d uses =>
      rcases ho with rfl | rfl | rfl <;> exact absurd hterm Bool.false_ne_true
  | reload d uses => exact absurd hterm Bool.false_ne_true
  | save uses => rfl
  | terminator o ho uses => rfl

theorem regular_body (h : f.Runnable) {b : Block M} (hb : b ∈ f.blocks) :
    ∀ i ∈ b.body, i.Regular :=
  fun i hi => h.regular b hb i (Block.mem_code_iff.mpr (Or.inl hi))

theorem straight_body (h : f.Runnable) {b : Block M} (hb : b ∈ f.blocks) :
    ∀ i ∈ b.body, i.isTerminator = false :=
  fun _ hi => (h.terminated b hb).not_terminator hi

/-- What the code of a block writes, its body does. -/
theorem mem_body_of_defs (h : f.Runnable) {b : Block M} (hb : b ∈ f.blocks) {i : Instr M}
    (hi : i ∈ b.code) {r : Register M} (hr : r ∈ i.defs) : i ∈ b.body := by
  rcases Block.mem_code_iff.mp hi with hbody | hrun
  · exact hbody
  · rw [h.defs_of_run hb hrun] at hr
    exact absurd hr (by simp)

/-- A stay in a block passes its body and then leaves through its run. -/
theorem leave_eq (h : f.Runnable) {b : Block M} (hb : b ∈ f.blocks) (s : Store M) :
    f.leave? s b.code = (f.pass? s b.body).bind fun t => f.leave? t b.run := by
  conv_lhs => rw [← b.body_append_run]
  exact leave_append (h.regular_body hb) (h.straight_body hb) s b.run

theorem pass_body_regs (h : f.Runnable) {b : Block M} (hb : b ∈ f.blocks) {s t : Store M}
    (hpass : f.pass? s b.body = some t) :
    (∀ r, (s.regs r).isSome → (t.regs r).isSome) ∧
      (∀ i ∈ b.body, ∀ r ∈ i.defs, (t.regs r).isSome) ∧
        ∀ r, (∀ i ∈ b.body, r ∉ i.defs) → t.regs r = s.regs r :=
  pass_regs (h.regular_body hb) (h.straight_body hb) hpass

end Runnable

/-- After the body of a block, all that it writes or that is available in it holds a value. -/
theorem isSome_of_ready (h : f.Runnable) {b : Nat} {block : Block M}
    (hb : f.blocks[b]? = some block) {s t : Store M} (hready : f.Ready b s)
    (hpass : f.pass? s block.body = some t) {r : Register M}
    (hr : block.Defines r ∨ f.Available b r) : (t.regs r).isSome := by
  have hmem := List.mem_of_getElem? hb
  have hregs := h.pass_body_regs hmem hpass
  rcases hr with (hinput | ⟨i, hi, hdef⟩) | havail
  · exact hregs.1 r (hready r (Or.inl (by rw [inputsOf_eq hb]; exact hinput)))
  · exact hregs.2.1 i (h.mem_body_of_defs hmem hi hdef) r hdef
  · exact hregs.1 r (hready r (Or.inr havail))

theorem isSome_setInputs {inputs : List (VReg M)} {args : List Int64} (s : Store M)
    {r : Register M}
    (hr : (s.regs r).isSome ∨ (args.length = inputs.length ∧ ∃ v ∈ inputs, r = .virtual v)) :
    ((s.setInputs inputs args).regs r).isSome := by
  induction inputs generalizing s args with
  | nil => simpa using hr
  | cons v inputs ih =>
      cases args with
      | nil => simpa [Store.setInputs] using hr
      | cons x args =>
          -- Later inputs may overwrite this one, but only with values of their own.
          rw [Store.setInputs_cons]
          apply ih
          by_cases heq : r = .virtual v
          · exact Or.inl (by simp [heq])
          · rw [Store.regs_setReg, if_neg heq]
            rcases hr with hsome | ⟨hlen, w, hw, hrw⟩
            · exact Or.inl hsome
            · rcases List.mem_cons.mp hw with rfl | hw
              · exact absurd hrw heq
              · exact Or.inr ⟨by simpa using hlen, w, hw, hrw⟩

/-- The block that a run of terminators enters is a successor. -/
theorem mem_next_of_enter {b : Nat} {block : Block M} (hb : f.blocks[b]? = some block)
    {i : Instr M} (hi : i ∈ block.run) {branch : Branch M} (hbranch : branch ∈ i.branches)
    {target : Block M} (htarget : f.blocks[branch.target]? = some target) :
    branch.target ∈ f.next b := by
  refine mem_next.mpr ⟨block, hb, ⟨i, hi, ?_⟩, ?_⟩
  · rw [Instr.references_eq]
    exact List.mem_map.mpr ⟨branch, hbranch, rfl⟩
  · exact (List.getElem?_eq_some_iff.mp htarget).1

/-- From a ready block, control enters a ready block. -/
theorem Ready.enter (h : f.Runnable) {b c : Nat} {s t : Store M} (hready : f.Ready b s)
    (hleave : f.leave? s (f.codeOf b) = some (.enter t c)) : f.Ready c t ∧ c ∈ f.next b := by
  rcases exists_block_of_leave hleave with ⟨block, hb, hleave⟩
  have hmem := List.mem_of_getElem? hb
  rw [h.leave_eq hmem, Option.bind_eq_some_iff] at hleave
  rcases hleave with ⟨u, hpass, hrun⟩
  rcases enter_of_run (fun _ hi => Block.isTerminator_of_mem_run hi) hrun with
    ⟨i, hi, branch, hbranch, target, args, rfl, htarget, hargs, rfl⟩
  have hnext := mem_next_of_enter hb hi hbranch htarget
  refine ⟨fun r hr => isSome_setInputs u ?_, hnext⟩
  rcases hr with hinput | havail
  · -- An input of the target: the branch passes a value for it.
    rw [inputsOf_eq htarget] at hinput
    rcases h.fits block hmem i hi branch hbranch with ⟨target', htarget', hlen⟩
    rw [htarget, Option.some.injEq] at htarget'
    subst htarget'
    exact Or.inr ⟨by rw [length_of_mapM hargs, hlen], hinput⟩
  · -- Written on every walk to the target: in this block or on every walk to it.
    rcases available_next hnext havail with ⟨block', hblock', hdef⟩ | hhere
    · rw [hb, Option.some.injEq] at hblock'
      subst hblock'
      exact Or.inl (isSome_of_ready h hb hready hpass (Or.inl hdef))
    · exact Or.inl (isSome_of_ready h hb hready hpass (Or.inr hhere))

end Function

end RegisterColoring
