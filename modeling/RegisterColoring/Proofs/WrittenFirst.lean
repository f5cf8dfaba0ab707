import RegisterColoring.Machine.Flat
import RegisterColoring.Proofs.LoweredRuns
import RegisterColoring.Sample

/-!
# The Write Behind a Read

Which write a read finds when control comes along a walk, before and after inputs are
replaced by copies.

The check tells registers apart by id, so it promises a write of the id. In single
assignment form an id is written once, which settles the class: either the write is of
the very register that is read, or nothing in the function writes that register.

Copies take their values from staging registers, and a jump fills those of its target.
One arrival has no jump behind it, the first one at the entry block. If the entry has
inputs that some jump supplies as well, they count as supplied, and the first arrival
fetches them from registers that nothing has written. `Stages.written_iff` says that
these are the only such reads.

## Main definitions

* `Function.Reads`: A walk ends at an instruction that reads a virtual register.
* `Function.WrittenBefore`: A register is written on a walk before an instruction.

## Theorems

* `Function.SingleAssignment.eq_of_id`: One register is written under each id.
* `Function.exists_written_of_read`: The write that a checked function has for a read.
* `Function.Stages.written_iff`: The reads of a function with copies that find a write.
* `Function.lowerInputs_written`: Replacing inputs leaves reads without a write exactly at
  an entry with inputs.
-/

namespace RegisterColoring

variable {M : Machine}

namespace Function

/-- Control arrives at block `b` along `path`, and instruction `k` of the block reads `v`. -/
def Reads (f : Function M) (path : List Nat) (b k : Nat) (block : Block M) (v : VReg M) : Prop :=
  Walk f.next path b ∧ f.blocks[b]? = some block ∧
    ∃ i, block.code[k]? = some i ∧ .virtual v ∈ i.reads

/-- A walk along `path` that goes on to instruction `k` of `block` has come past a write of
    `r`, by an instruction or an input. -/
def WrittenBefore (f : Function M) (path : List Nat) (block : Block M) (k : Nat)
    (r : Register M) : Prop :=
  block.DefinesBefore k r ∨ ∃ c ∈ path, f.Defines c r

variable {f : Function M} {path : List Nat} {b k : Nat} {block : Block M} {v : VReg M}

theorem WrittenBefore.exists_defines {r : Register M} (h : f.WrittenBefore path block k r)
    (hb : f.blocks[b]? = some block) : ∃ c, f.Defines c r := by
  rcases h with hbefore | ⟨c, _, hdef⟩
  · exact ⟨b, block, hb, defines_of_definesBefore hbefore⟩
  · exact ⟨c, hdef⟩

/-- In single assignment form, one register is written under each id. -/
theorem SingleAssignment.eq_of_id (h : f.SingleAssignment) {u w : VReg M} {c d : Nat}
    (hu : f.Defines c (.virtual u)) (hw : f.Defines d (.virtual w)) (hid : u.id = w.id) :
    u = w := by
  rcases hu with ⟨block, hblock, hu⟩
  rcases hw with ⟨other, hother, hw⟩
  obtain rfl := h.block_unique hblock hother (mem_ids_of_defines hu) (hid ▸ mem_ids_of_defines hw)
  obtain rfl := Option.some.inj (hblock.symm.trans hother)
  have hnodup := h.ids_nodup (List.mem_of_getElem? hblock)
  rw [ids_eq] at hnodup
  exact List.inj_on_of_nodup_map hnodup (mem_writtenBefore_length.mpr hu)
    (mem_writtenBefore_length.mpr hw) hid

/-- In single assignment form, a read comes after a write of its id. -/
theorem SingleAssignment.exists_written (h : f.SingleAssignment)
    (hread : f.Reads path b k block v) :
    ∃ w : VReg M, w.id = v.id ∧ f.WrittenBefore path block k (.virtual w) := by
  rcases hread with ⟨hwalk, hb, i, hk, hread⟩
  have hid : v.id ∈ i.readIds := Instr.mem_readIds.mpr ⟨v, hread, rfl⟩
  rcases h.defined_of_walk hwalk hb hk hid with
    hbefore | ⟨c, hc, earlier, hearlier, hdef⟩
  · rw [← map_id_writtenBefore] at hbefore
    rcases List.mem_map.mp hbefore with ⟨w, hw, hwid⟩
    exact ⟨w, hwid, Or.inl (mem_writtenBefore.mp hw)⟩
  · rw [ids_eq] at hdef
    rcases List.mem_map.mp hdef with ⟨w, hw, hwid⟩
    exact ⟨w, hwid, Or.inr ⟨c, hc, earlier, hearlier, mem_writtenBefore_length.mp hw⟩⟩

/-- On every walk through a checked function, a read comes after a write of its id, and the
    register written there is the only one that the function writes under that id. -/
theorem exists_written_of_read (hcheck : f.check = .ok ()) (hread : f.Reads path b k block v) :
    ∃ w : VReg M, w.id = v.id ∧ f.WrittenBefore path block k (.virtual w) ∧
      ∀ u : VReg M, u.id = v.id → (∃ c, f.Defines c (.virtual u)) → u = w := by
  have hsingle : f.SingleAssignment := .of_check hcheck
  rcases hsingle.exists_written hread with ⟨w, hid, hwritten⟩
  refine ⟨w, hid, hwritten, fun u huid ⟨c, hu⟩ => ?_⟩
  rcases hwritten.exists_defines hread.2.1 with ⟨d, hw⟩
  exact hsingle.eq_of_id hu hw (huid.trans hid.symm)

/-- A loop whose counter comes in through a block input. -/
def countdown : Function flat :=
  let r (k : Nat) : VReg flat := ⟨k, FlatClass.mk 4⟩
  ⟨"f", [
    ⟨[], [Sample.assign .copy (r 0) [.imm 3], Sample.perform .jmp [.block 1, .ofVReg (r 0)]]⟩,
    ⟨[r 1], [Sample.assign .sub (r 2) [.ofVReg (r 1), .imm 1],
      Sample.perform .jnz [.ofVReg (r 2), .block 1, .ofVReg (r 2)],
      Sample.perform .ret [.ofVReg (r 0)]]⟩]⟩

theorem countdown_written :
    countdown.check = .ok () ∧ ∃ block, countdown.Reads [1, 0] 1 2 block ⟨0, FlatClass.mk 4⟩ ∧
      ∃ w : VReg flat, w.id = 0 ∧ countdown.WrittenBefore [1, 0] block 2 (.virtual w) ∧
        ∀ u : VReg flat, u.id = 0 → (∃ c, countdown.Defines c (.virtual u)) → u = w := by
  have hcheck : countdown.check = .ok () := by decide
  have hwalk : Walk countdown.next [1, 0] 1 := .step (.step .start (by decide)) (by decide)
  have hread : countdown.Reads [1, 0] 1 2 _ ⟨0, FlatClass.mk 4⟩ :=
    ⟨hwalk, rfl, _, rfl, by decide⟩
  exact ⟨hcheck, _, hread, exists_written_of_read hcheck hread⟩

/-- A value that is written in one class and read in another. -/
def twoClasses : Function flat :=
  ⟨"f", [⟨[], [Sample.assign .copy ⟨0, FlatClass.mk 4⟩ [.imm 1],
    Sample.perform .ret [.ofVReg ⟨0, FlatClass.mk 2⟩]]⟩]⟩

/-- The check passes, and nothing writes the register that is read. -/
theorem twoClasses_unwritten :
    twoClasses.check = .ok () ∧ ∃ block, twoClasses.Reads [] 0 1 block ⟨0, FlatClass.mk 2⟩ ∧
      ¬ twoClasses.WrittenBefore [] block 1 (.virtual ⟨0, FlatClass.mk 2⟩) := by
  refine ⟨by decide, _, ⟨.start, rfl, _, rfl, by decide⟩, ?_⟩
  simp [WrittenBefore, Block.DefinesBefore, Sample.assign]

section Copies

variable {staging : Staging M} {n : Nat}

namespace Stages

variable (h : f.Stages staging n)

include h

/-- A block starts with the copies that fetch its inputs, and behind them it reads old
    registers only. -/
theorem exists_behind {c : Block M} (hb : f.blocks[b]? = some block)
    (hc : (f.withCopies staging).blocks[b]? = some c) :
    ∃ behind, c.code = fetchCopies staging block.inputs ++ behind ∧
      ∀ i ∈ behind, ∀ r ∈ i.reads, r.Below n := by
  have hmem := List.mem_of_getElem? hb
  rcases withCopies_of_block staging hb with ⟨c', hc', hlowers⟩
  obtain rfl := Option.some.inj (hc.symm.trans hc')
  have hold : ∀ i ∈ block.code, ∀ r ∈ i.reads, r.Below n := fun i hi r hr =>
    h.below.below (mem_registers_of_instr hmem hi (Or.inr hr))
  refine ⟨block.body ++ copiesAhead f staging block.contests (block.run.flatMap Instr.branches) ++
    c.run, ?_, fun i hi r hr => ?_⟩
  · rw [← c.body_append_run, (h.single.body_run h.apart hb hlowers).1]
    simp only [List.append_assoc]
  · rw [List.mem_append, List.mem_append, h.mem_ahead] at hi
    rcases hi with (hi | ⟨j, hj, branch, hbranch, _, p, hp, rfl⟩) | hi
    · exact hold i (Block.mem_code_iff.mpr (Or.inl hi)) r hr
    · exact ((h.copy_of_move hmem hj hbranch hp).1 r hr).2
    · rcases (h.run_of_mem hb hlowers hi).2 with ⟨j, hj, _, hreads⟩
      exact hold j (Block.mem_code_iff.mpr (Or.inr hj)) r (hreads r hr)

/-- Where a staging register is read, the block has not written it. -/
theorem not_definesBefore_staged {c : Block M} (hb : f.blocks[b]? = some block)
    (hc : (f.withCopies staging).blocks[b]? = some c) {i : Instr M} (hk : c.code[k]? = some i)
    {w : VReg M} (hw : w ∈ f.inputsOf b) (hread : .virtual (stageOf staging w) ∈ i.reads) :
    ¬ c.DefinesBefore k (.virtual (stageOf staging w)) := by
  have hnew := h.apart.not_below hw
  rcases h.exists_behind hb hc with ⟨behind, hcode, hbelow⟩
  -- The reading copy stands among those that fetch inputs.
  have hlt : k < (fetchCopies staging block.inputs).length := by
    by_contra hle
    rw [hcode, List.getElem?_append_right (by omega)] at hk
    exact hnew (hbelow i (List.mem_of_getElem? hk) _ hread)
  rintro (⟨u, hu, _⟩ | ⟨j, hj, hdef⟩)
  · rw [inputs_withCopies c (List.mem_of_getElem? hc)] at hu
    exact absurd hu (by simp)
  · rw [hcode, List.take_append_of_le_length (Nat.le_of_lt hlt)] at hj
    rcases (h.mem_fetch hb).mp (List.mem_of_mem_take hj) with ⟨u, hu, rfl⟩
    exact hnew ((h.copy_of_input hu).2 _ hdef).2

/-- A read finds a write, unless it fetches an input of the entry on the first arrival. -/
theorem written_iff (hone : f.OneClass)
    (hread : (f.withCopies staging).Reads path b k block v) :
    (f.withCopies staging).WrittenBefore path block k (.virtual v) ↔
      ¬ (path = [] ∧ ∃ w ∈ f.inputsOf 0, v = stageOf staging w) := by
  rcases hread with ⟨hwalk, hb, i, hk, hread⟩
  constructor
  · rintro hwritten ⟨rfl, w, hw, rfl⟩
    obtain rfl : b = 0 := by cases hwalk; rfl
    rcases mem_inputsOf hw with ⟨old, hold, _⟩
    rcases hwritten with hbefore | ⟨c, hc, _⟩
    · exact h.not_definesBefore_staged hold hb hk hw hread hbefore
    · exact absurd hc (by simp)
  · intro hlater
    by_cases hbefore : block.DefinesBefore k (.virtual v)
    · exact Or.inl hbefore
    refine Or.inr ?_
    rcases h.reads_cases hb (List.mem_of_getElem? hk) hread with hbelow | ⟨w, hw, heq⟩
    · have hexposes : block.Exposes (.virtual v) :=
        ⟨fun u hu huv => hbefore (Or.inl ⟨u, hu, huv⟩), k, ⟨i, hk, hread⟩,
          fun m hm j hj hdef => hbefore (Or.inr ⟨j, mem_take_iff.mpr ⟨m, hm, hj⟩, hdef⟩)⟩
      exact h.written_before (size_pos hb) hbelow (h.single.strict hone v) hwalk hb hexposes
    · -- The block before has staged the inputs, if there is one.
      cases hwalk with
      | start => exact absurd ⟨rfl, w, hw, Register.virtual.inj heq⟩ hlater
      | step _ hedge =>
          rw [heq]
          exact ⟨_, List.mem_cons_self, h.staged_before hedge hw⟩

/-- An input of the entry is fetched on the first arrival. -/
theorem exists_fetch {w : VReg M} (hw : w ∈ f.inputsOf 0) :
    ∃ k block, (f.withCopies staging).Reads [] 0 k block (stageOf staging w) := by
  rcases mem_inputsOf hw with ⟨old, hold, _⟩
  rcases withCopies_of_block staging hold with ⟨c, hc, _⟩
  rcases h.exists_behind hold hc with ⟨behind, hcode, _⟩
  have hmem : copyTo w (.ofVReg (stageOf staging w)) ∈ c.code := by
    rw [hcode]
    exact List.mem_append_left _ ((h.mem_fetch hold).mpr ⟨w, hw, rfl⟩)
  rcases List.getElem?_of_mem hmem with ⟨k, hk⟩
  exact ⟨k, c, .start, hc, _, hk, mem_reads_copyTo.mpr rfl⟩

end Stages

end Copies

/-- With inputs replaced by copies, every read on a walk comes after a write, except that the
    first arrival at the entry fetches its inputs from staging registers that nothing has
    written. So all reads come after writes exactly if the entry has no inputs. -/
theorem lowerInputs_written {g : Function M} {supply rest : Supply} (hcheck : f.check = .ok ())
    (hone : f.OneClass) (hquiet : ∀ i ∈ f.instructions, i.isTerminator = true → i.defs = [])
    (hfresh : supply.FreshFor f (f.staging supply).length)
    (hlower : f.lowerInputs supply = .ok (g, rest)) :
    (∀ path b k block v, g.Reads path b k block v →
      (g.WrittenBefore path block k (.virtual v) ↔
        ¬ (path = [] ∧ ∃ w ∈ f.inputsOf 0, v = stageOf (f.staging supply) w))) ∧
    ((∀ path b k block v, g.Reads path b k block v → g.WrittenBefore path block k (.virtual v)) ↔
      f.inputsOf 0 = []) := by
  rcases lowerInputs_eq_ok_iff.mp hlower with ⟨_, _, hfound, rfl, _⟩
  rcases exists_apart_staging hfound hfresh with ⟨n, hbelow, hapart⟩
  have hstages : f.Stages (f.staging supply) n := by
    refine ⟨.of_check hcheck, fun b hb i hi => ?_, hbelow, hapart⟩
    exact hquiet i (mem_instructions hb (Block.mem_code_iff.mpr (Or.inr hi)))
      (Block.isTerminator_of_mem_run hi)
  refine ⟨fun path b k block v hread => hstages.written_iff hone hread, fun hall => ?_, ?_⟩
  · by_contra hinputs
    rcases List.exists_mem_of_ne_nil _ hinputs with ⟨w, hw⟩
    rcases hstages.exists_fetch hw with ⟨k, block, hread⟩
    exact (hstages.written_iff hone hread).mp (hall _ _ _ _ _ hread) ⟨rfl, w, hw, rfl⟩
  · intro hinputs path b k block v hread
    refine (hstages.written_iff hone hread).mpr ?_
    rintro ⟨_, w, hw, _⟩
    rw [hinputs] at hw
    exact absurd hw (by simp)

theorem countdown_lowered :
    ∃ g rest, countdown.lowerInputs ⟨3, 0⟩ = .ok (g, rest) ∧
      ∀ path b k block v, g.Reads path b k block v → g.WrittenBefore path block k (.virtual v) := by
  have hlower : countdown.lowerInputs ⟨3, 0⟩ = .ok (_, _) := rfl
  exact ⟨_, _, hlower, (lowerInputs_written (by decide) (by decide) (by decide) (by decide)
    hlower).2.mpr rfl⟩

/-- An entry that takes an input and loops. -/
def loopingEntry : Function flat :=
  let r : VReg flat := ⟨0, FlatClass.mk 4⟩
  ⟨"f", [⟨[r], [Sample.perform .jnz [.ofVReg r, .block 0, .ofVReg r, .block 1]]⟩,
    ⟨[], [Sample.perform .ret [.ofVReg r]]⟩]⟩

/-- The first arrival reads the staging register that only the loop writes. -/
theorem loopingEntry_unwritten :
    loopingEntry.check = .ok () ∧ loopingEntry.OneClass ∧
      (∀ i ∈ loopingEntry.instructions, i.isTerminator = true → i.defs = []) ∧
      Supply.FreshFor ⟨1, 0⟩ loopingEntry (loopingEntry.staging ⟨1, 0⟩).length ∧
      ∃ g rest block, loopingEntry.lowerInputs ⟨1, 0⟩ = .ok (g, rest) ∧
        g.Reads [] 0 0 block ⟨1, FlatClass.mk 4⟩ ∧
        ¬ g.WrittenBefore [] block 0 (.virtual ⟨1, FlatClass.mk 4⟩) := by
  refine ⟨by decide, by decide, by decide, by decide, _, _, _, rfl,
    ⟨.start, rfl, _, rfl, by decide⟩, ?_⟩
  simp [WrittenBefore, Block.DefinesBefore]

end Function

end RegisterColoring
