import RegisterColoring.Machine.Flat
import RegisterColoring.Proofs.PathWalk
import RegisterColoring.Sample

/-!
# Single Assignment

What the check of a function decides, said without the check. A function is in
static single assignment form if its blocks are closed by terminators, its jumps
fit the blocks they go to, no id is defined twice, every block can be reached,
and on every walk each read comes after a definition of its id.

The last condition is about all walks, of which a loop gives infinitely many,
and the check looks at the simple paths alone. Neither side loses anything. A
simple path is a walk, and a walk contains a simple path to the same block, whose
definitions the walk has as well.

The check goes through a block with the ids defined so far at hand. That no id
repeats then is a statement about each instruction and what stands before it,
which `Block.ids_nodup_iff` puts together.

## Main definitions

* `Block.Terminated`: A block ends with terminators and has none elsewhere.
* `Branch.Fits`: A jump passes an argument for every input of its target.
* `Function.SingleAssignment`: Static single assignment form.

## Theorems

* `firstRepeat_eq_none_iff`: No id repeats.
* `Block.fault_eq_none_iff`: What a block without a fault is.
* `duplicateAcross_eq_none_iff`: No id is defined in two blocks.
* `Function.definesId_unique`: An id is defined in one block.
* `Function.pathFault_eq_none_iff`: What the paths of a function without a fault are.
* `Function.check_eq_ok_iff`: The check accepts exactly single assignment form.
* `Function.loopFrom_singleAssignment`: Two loops, of which it accepts one.
-/

namespace RegisterColoring

variable {M : Machine}

/-- A block holds a terminator, and after a terminator only terminators. -/
def Block.Terminated (b : Block M) : Prop :=
  (∃ i ∈ b.code, i.isTerminator = true) ∧
    ∀ (j k : Nat) (first later : Instr M), j < k →
      b.code[j]? = some first → b.code[k]? = some later →
        first.isTerminator = true → later.isTerminator = true

/-- A branch names an existing block and passes as many arguments as it has inputs. -/
def Branch.Fits (f : Function M) (branch : Branch M) : Prop :=
  ∃ target, f.blocks[branch.target]? = some target ∧ branch.args.length = target.inputs.length

theorem Branch.Fits.target_lt {f : Function M} {branch : Branch M} (h : branch.Fits f) :
    branch.target < f.size := by
  rcases h with ⟨target, htarget, _⟩
  exact (List.getElem?_eq_some_iff.mp htarget).1

/-- A block of function `f` defines id `r`, by an input or an instruction. -/
def Function.DefinesId (f : Function M) (c r : Nat) : Prop :=
  ∃ block, f.blocks[c]? = some block ∧ r ∈ block.ids

/-- Static single assignment form. -/
structure Function.SingleAssignment (f : Function M) : Prop where
  terminated : ∀ b ∈ f.blocks, b.Terminated
  fits : ∀ b ∈ f.blocks, ∀ i ∈ b.code, i.isTerminator = true →
    ∀ branch ∈ i.branches, branch.Fits f
  /-- No id is defined twice, in one block or in two. -/
  once : (f.blocks.flatMap Block.ids).Nodup
  reached : ∀ b < f.size, ∃ path, f.Route path b
  /-- On every walk, an id that an instruction reads is defined before it in the
      block or in an earlier block of the walk. -/
  defined : ∀ path b block k i r, f.Route path b → f.blocks[b]? = some block →
    block.code[k]? = some i → r ∈ i.readIds →
      r ∈ block.idsBefore k ∨ ∃ c ∈ path, f.DefinesId c r

/-- A search through the elements of a list and their indexes finds nothing. -/
theorem findSome?_zipIdx_eq_none_iff {α β : Type} {l : List α} {F : α × Nat → Option β} :
    l.zipIdx.findSome? F = none ↔ ∀ (k : Nat) (a : α), l[k]? = some a → F (a, k) = none := by
  rw [List.findSome?_eq_none_iff]
  constructor
  · exact fun h k a hk => h (a, k) (List.mem_zipIdx_iff_getElem?.mpr hk)
  · rintro h ⟨a, k⟩ hak
    exact h k a (List.mem_zipIdx_iff_getElem?.mp hak)

theorem firstRepeat_eq_none_iff {seen l : List Nat} :
    firstRepeat seen l = none ↔ l.Nodup ∧ ∀ r ∈ l, r ∉ seen := by
  induction l generalizing seen with
  | nil => simp [firstRepeat]
  | cons r rest ih =>
      rw [firstRepeat]
      by_cases hr : r ∈ seen
      · rw [if_pos (by simpa using hr)]
        constructor
        · intro h
          exact absurd h (by simp)
        · rintro ⟨_, hseen⟩
          exact absurd hr (hseen r (by simp))
      · rw [if_neg (by simpa using hr), ih, List.nodup_cons]
        constructor
        · rintro ⟨hnodup, hseen⟩
          refine ⟨⟨fun hmem => hseen r hmem (by simp), hnodup⟩, ?_⟩
          intro q hq
          rcases List.mem_cons.mp hq with rfl | hq
          · exact hr
          · exact fun hmem => hseen q hq (by simp [hmem])
        · -- The head joins what has been seen.
          rintro ⟨⟨hnew, hnodup⟩, hseen⟩
          refine ⟨hnodup, fun q hq hmem => ?_⟩
          rcases List.mem_cons.mp hmem with rfl | hmem
          · exact hnew hq
          · exact hseen q (by simp [hq]) hmem

theorem Branch.fault_eq_none_iff {f : Function M} {label : Nat} {branch : Branch M} :
    branch.fault? f label = none ↔ branch.Fits f := by
  unfold Branch.fault? Branch.Fits
  cases f.blocks[branch.target]? with
  | none => simp
  | some target => simp

/-- Instruction `k` adds no terminator after an end and no id that is there already,
    and its branches fit. -/
theorem Instr.fault_eq_none_iff {f : Function M} {label : Nat} {b : Block M} {i : Instr M}
    {k : Nat} :
    i.fault? f label b k = none ↔
      ((∃ first ∈ b.code.take k, first.isTerminator = true) → i.isTerminator = true) ∧
        (i.defIds.Nodup ∧ ∀ r ∈ i.defIds, r ∉ b.idsBefore k) ∧
          (i.isTerminator = true → ∀ branch ∈ i.branches, branch.Fits f) := by
  unfold Instr.fault?
  -- The first test is the only one that looks at what stands before.
  by_cases hend : ∃ first ∈ b.code.take k, first.isTerminator = true
  · have hany : (b.code.take k).any Instr.isTerminator = true := List.any_eq_true.mpr hend
    cases hi : i.isTerminator with
    | false => simp [hany, hend]
    | true =>
        simp [hany, firstRepeat_eq_none_iff, Branch.fault_eq_none_iff]
  · have hany : (b.code.take k).any Instr.isTerminator = false := by
      rw [Bool.eq_false_iff]
      exact fun h => hend (List.any_eq_true.mp h)
    cases hi : i.isTerminator with
    | false => simp [hany, hend, firstRepeat_eq_none_iff]
    | true => simp [hany, firstRepeat_eq_none_iff, Branch.fault_eq_none_iff]

/-- Ids are different if each group of them is, and none is in an earlier group
    or among those given. -/
theorem nodup_append_flatMap_iff {α : Type} (g : α → List Nat) (given : List Nat)
    (hgiven : given.Nodup) (l : List α) :
    (given ++ l.flatMap g).Nodup ↔
      ∀ k a, l[k]? = some a → (g a).Nodup ∧ ∀ r ∈ g a, r ∉ given ++ (l.take k).flatMap g := by
  induction l generalizing given with
  | nil => simpa using hgiven
  | cons a l ih =>
      -- The ids of the first group join the given ones for the rest of the list.
      rw [List.flatMap_cons, ← List.append_assoc]
      constructor
      · intro h
        have hfirst : (given ++ g a).Nodup := (List.nodup_append.mp h).1
        intro k b hk
        cases k with
        | zero =>
            have hab : a = b := by simpa using hk
            subst hab
            have hsplit := List.nodup_append.mp hfirst
            refine ⟨hsplit.2.1, fun r hr hmem => ?_⟩
            exact hsplit.2.2 r (by simpa using hmem) r hr rfl
        | succ k =>
            have := (ih (given ++ g a) hfirst).mp h k b (by simpa using hk)
            refine ⟨this.1, fun r hr => ?_⟩
            rw [List.take_succ_cons, List.flatMap_cons, ← List.append_assoc]
            exact this.2 r hr
      · intro h
        have hzero := h 0 a (by simp)
        have hfirst : (given ++ g a).Nodup := by
          refine List.nodup_append.mpr ⟨hgiven, hzero.1, fun q hq r hr heq => ?_⟩
          subst heq
          exact hzero.2 q hr (by simpa using hq)
        refine (ih (given ++ g a) hfirst).mpr (fun k b hk => ?_)
        have := h (k + 1) b (by simpa using hk)
        refine ⟨this.1, fun r hr => ?_⟩
        have hout := this.2 r hr
        rw [List.take_succ_cons, List.flatMap_cons, ← List.append_assoc] at hout
        exact hout

/-- The ids of a block are different if its inputs are and no instruction repeats one. -/
theorem Block.ids_nodup_iff {b : Block M} :
    b.ids.Nodup ↔ (b.inputs.map VReg.id).Nodup ∧
      ∀ k i, b.code[k]? = some i → i.defIds.Nodup ∧ ∀ r ∈ i.defIds, r ∉ b.idsBefore k := by
  unfold Block.ids Block.idsBefore
  constructor
  · intro h
    have hinputs := (List.nodup_append.mp h).1
    exact ⟨hinputs, (nodup_append_flatMap_iff _ _ hinputs _).mp h⟩
  · rintro ⟨hinputs, hcode⟩
    exact (nodup_append_flatMap_iff _ _ hinputs _).mpr hcode

/-- What stands before index `k` stands at an earlier one. -/
theorem mem_take_iff {α : Type} {l : List α} {k : Nat} {a : α} :
    a ∈ l.take k ↔ ∃ j < k, l[j]? = some a := by
  constructor
  · intro hmem
    rcases List.getElem?_of_mem hmem with ⟨j, hj⟩
    rw [List.getElem?_take] at hj
    by_cases hjk : j < k
    · rw [if_pos hjk] at hj
      exact ⟨j, hjk, hj⟩
    · rw [if_neg hjk] at hj
      exact absurd hj (by simp)
  · rintro ⟨j, hjk, hj⟩
    refine List.mem_of_getElem? (i := j) ?_
    rw [List.getElem?_take, if_pos hjk, hj]

/-- A block without a fault is terminated, its branches fit, and its ids are different. -/
theorem Block.fault_eq_none_iff {f : Function M} {label : Nat} {b : Block M} :
    b.fault? f label = none ↔
      b.Terminated ∧ b.ids.Nodup ∧
        ∀ i ∈ b.code, i.isTerminator = true → ∀ branch ∈ i.branches, branch.Fits f := by
  have hany : (if b.code.any Instr.isTerminator then none
      else some (Malformed.unterminatedBlock label)) = none ↔
        ∃ i ∈ b.code, i.isTerminator = true := by
    rw [← List.any_eq_true]
    cases b.code.any Instr.isTerminator <;> simp
  unfold Block.fault?
  rw [Option.or_eq_none_iff, Option.or_eq_none_iff, Option.map_eq_none_iff,
    findSome?_zipIdx_eq_none_iff, hany, firstRepeat_eq_none_iff, Block.ids_nodup_iff]
  simp only [Instr.fault_eq_none_iff, mem_take_iff]
  constructor
  · rintro ⟨⟨hinputs, _⟩, hinstr, hend⟩
    refine ⟨⟨hend, ?_⟩, ⟨hinputs, fun k i hk => (hinstr k i hk).2.1⟩, ?_⟩
    · intro j k first later hjk hj hk hfirst
      exact (hinstr k later hk).1 ⟨first, ⟨j, hjk, hj⟩, hfirst⟩
    · intro i hi
      rcases List.getElem?_of_mem hi with ⟨k, hk⟩
      exact (hinstr k i hk).2.2
  · -- No ids are seen before the inputs, so that half of the test for them is void.
    rintro ⟨⟨hend, hafter⟩, ⟨hinputs, hids⟩, hfits⟩
    refine ⟨⟨hinputs, by simp⟩, fun k i hk => ⟨?_, hids k i hk, ?_⟩, hend⟩
    · rintro ⟨first, ⟨j, hjk, hj⟩, hfirst⟩
      exact hafter j k first i hjk hj hk hfirst
    · exact hfits i (List.mem_of_getElem? hk)

/-- If the ids of each block are different, no id is in two blocks or among those
    seen before exactly if all of them are different. -/
theorem duplicateAcross_eq_none_iff {seen : List Nat} {label : Nat} {blocks : List (Block M)}
    (hblocks : ∀ b ∈ blocks, b.ids.Nodup) :
    duplicateAcross? seen label blocks = none ↔
      (blocks.flatMap Block.ids).Nodup ∧ ∀ r ∈ blocks.flatMap Block.ids, r ∉ seen := by
  induction blocks generalizing seen label with
  | nil => simp [duplicateAcross?]
  | cons b rest ih =>
      rw [duplicateAcross?]
      cases hfind : b.ids.find? fun r => seen.contains r with
      | some r =>
          -- The id that was found is both in this block and seen.
          have hmem := List.mem_of_find?_eq_some hfind
          have hseen := List.find?_some hfind
          constructor
          · intro h
            exact absurd h (by simp)
          · rintro ⟨_, hout⟩
            exact absurd (by simpa using hseen) (hout r (by simp [hmem]))
      | none =>
          have hnew : ∀ r ∈ b.ids, r ∉ seen := by
            intro r hr
            simpa using List.find?_eq_none.mp hfind r hr
          have hrest : ∀ c ∈ rest, c.ids.Nodup := fun c hc => hblocks c (by simp [hc])
          simp only [ih hrest, List.flatMap_cons, List.nodup_append]
          constructor
          · rintro ⟨hnodup, hout⟩
            refine ⟨⟨hblocks b (by simp), hnodup, ?_⟩, ?_⟩
            · rintro q hq r hr rfl
              exact hout q hr (by simp [hq])
            · intro r hr
              rcases List.mem_append.mp hr with hr | hr
              · exact hnew r hr
              · exact fun hmem => hout r hr (by simp [hmem])
          · rintro ⟨⟨_, hnodup, hapart⟩, hout⟩
            refine ⟨hnodup, fun r hr hmem => ?_⟩
            rcases List.mem_append.mp hmem with hmem | hmem
            · exact hapart r hmem r hr rfl
            · exact hout r (by simp [hr]) hmem

/-- A block needs the ids that it reads before it defines them. -/
theorem Block.mem_needs {b : Block M} {r : Nat} :
    r ∈ b.needs ↔ ∃ k i, b.code[k]? = some i ∧ r ∈ i.readIds ∧ r ∉ b.idsBefore k := by
  unfold Block.needs
  rw [List.mem_flatMap]
  constructor
  · rintro ⟨⟨i, k⟩, hik, hr⟩
    rw [List.mem_filter] at hr
    exact ⟨k, i, List.mem_zipIdx_iff_getElem?.mp hik, hr.1, by simpa using hr.2⟩
  · rintro ⟨k, i, hk, hr, hnew⟩
    refine ⟨(i, k), List.mem_zipIdx_iff_getElem?.mpr hk, ?_⟩
    rw [List.mem_filter]
    exact ⟨hr, by simpa using hnew⟩

namespace Function

variable {f : Function M}

/-- The ids that the check keeps by block are found in the block. -/
theorem mem_getD_map {g : Block M → List Nat} {b r : Nat} :
    r ∈ (f.blocks.map g).toArray.getD b [] ↔ ∃ block, f.blocks[b]? = some block ∧ r ∈ g block := by
  rw [Array.getD_eq_getD_getElem?, List.getElem?_toArray, List.getElem?_map]
  cases f.blocks[b]? with
  | none => simp
  | some block => simp

theorem mem_getD_ids {c r : Nat} :
    r ∈ (f.blocks.map Block.ids).toArray.getD c [] ↔ f.DefinesId c r :=
  mem_getD_map

/-- An id is defined in one block. -/
theorem definesId_unique (honce : (f.blocks.flatMap Block.ids).Nodup) {b c r : Nat}
    (hb : f.DefinesId b r) (hc : f.DefinesId c r) : b = c := by
  rcases hb with ⟨block, hb, hr⟩
  rcases hc with ⟨other, hc, hr'⟩
  by_contra hne
  have hlt := List.getElem?_eq_some_iff.mp hb
  have hlt' := List.getElem?_eq_some_iff.mp hc
  -- The ids of different blocks are disjoint.
  have hpair := List.pairwise_iff_getElem.mp (List.nodup_flatMap.mp honce).2
  rcases Nat.lt_or_gt_of_ne hne with hless | hless
  · have hdis := hpair b c hlt.1 hlt'.1 hless
    rw [hlt.2, hlt'.2] at hdis
    exact hdis hr hr'
  · have hdis := hpair c b hlt'.1 hlt.1 hless
    rw [hlt.2, hlt'.2] at hdis
    exact hdis hr' hr

/-- The simple arrivals of a function are those at the ends of its simple paths. -/
theorem mem_simpleArrivals_iff (hf : 0 < f.size) {path : List Nat} {b : Nat} :
    ⟨path, b⟩ ∈ simpleArrivals f.next f.size [] 0 ↔ Walk f.next path b ∧ (b :: path).Nodup := by
  rw [simpleArrivals, List.mem_filter, ← arrivals_eq hf, mem_arrivals_iff hf, List.nodup_cons,
    and_assoc, and_comm (a := path.Nodup)]
  simp

/-- An arrival misses nothing if its path defines what its block needs. -/
theorem undefined_eq_none_iff {a : Arrival} :
    a.undefined? (fun c => (f.blocks.map Block.ids).toArray.getD c [])
        (fun c => (f.blocks.map Block.needs).toArray.getD c []) = none ↔
      ∀ block, f.blocks[a.block]? = some block →
        ∀ r ∈ block.needs, ∃ c ∈ a.path, f.DefinesId c r := by
  unfold Arrival.undefined?
  rw [Option.map_eq_none_iff, List.find?_eq_none]
  simp only [mem_getD_map, Bool.not_eq_true', Bool.not_eq_false, List.contains_iff_mem,
    List.mem_flatMap, DefinesId]
  constructor
  · exact fun h block hb r hr => h r ⟨block, hb, hr⟩
  · rintro h r ⟨block, hb, hr⟩
    exact h block hb r hr

/-- If no id is defined in two blocks, the walk finds a fault where a simple path does not
    define what its last block needs, or where no simple path leads. -/
theorem pathFault_eq_none_iff_arrivals (hf : 0 < f.size)
    (honce : (f.blocks.flatMap Block.ids).Nodup) :
    f.pathFault? = none ↔
      (∀ a ∈ simpleArrivals f.next f.size [] 0, ∀ block, f.blocks[a.block]? = some block →
        ∀ r ∈ block.needs, ∃ c ∈ a.path, f.DefinesId c r) ∧
      ∀ b < f.size, ∃ a ∈ simpleArrivals f.next f.size [] 0, a.block = b := by
  have hapart : ∀ b c, b ≠ c → List.Disjoint ((f.blocks.map Block.ids).toArray.getD b [])
      ((f.blocks.map Block.ids).toArray.getD c []) := by
    intro b c hne r hb hc
    exact hne (definesId_unique honce (mem_getD_ids.mp hb) (mem_getD_ids.mp hc))
  have hwalk : PathWalk.visit f.flow.succ (fun c => (f.blocks.map Block.ids).toArray.getD c [])
      (fun c => (f.blocks.map Block.needs).toArray.getD c []) f.size .start 0 =
        (simpleArrivals f.next f.size [] 0).foldlM (PathWalk.meet _ _) .start :=
    PathWalk.visit_eq hapart (fun _ _ => lt_size_of_mem_next) (PathWalk.follows_start _)
      (by simp) (by simpa using hf) (Nat.le_add_right _ _)
  unfold pathFault?
  simp only [hwalk, PathWalk.foldlM_meet_eq, ← undefined_eq_none_iff]
  rw [← List.findSome?_eq_none_iff]
  cases (simpleArrivals f.next f.size [] 0).findSome? _ with
  | some cause => simp
  | none =>
      rw [Option.map_eq_none_iff, List.find?_eq_none]
      simp [PathWalk.mem_foldl_insert, PathWalk.start]

/-- Along the paths of a nonempty function in which no id is defined twice, there is no fault
    exactly if every block is reached and every read on a route is defined. -/
theorem pathFault_eq_none_iff (hf : 0 < f.size) (honce : (f.blocks.flatMap Block.ids).Nodup) :
    f.pathFault? = none ↔
      (∀ b < f.size, ∃ path, f.Route path b) ∧
        ∀ path b block k i r, f.Route path b → f.blocks[b]? = some block →
          block.code[k]? = some i → r ∈ i.readIds →
            r ∈ block.idsBefore k ∨ ∃ c ∈ path, f.DefinesId c r := by
  rw [pathFault_eq_none_iff_arrivals hf honce]
  simp only [route_iff]
  constructor
  · rintro ⟨huse, hreach⟩
    refine ⟨fun b hb => ?_, fun path b block k i r hwalk hb hk hr => ?_⟩
    · rcases hreach b hb with ⟨⟨path, c⟩, ha, rfl⟩
      exact ⟨path, ((mem_simpleArrivals_iff hf).mp ha).1⟩
    · by_cases hbefore : r ∈ block.idsBefore k
      · exact Or.inl hbefore
      · -- The read is a need of the block, and a simple part of the walk defines it.
        have hneed : r ∈ block.needs := Block.mem_needs.mpr ⟨k, i, hk, hr, hbefore⟩
        rcases hwalk.shorten with ⟨short, hshort, hnodup, hsub⟩
        have harrival := (mem_simpleArrivals_iff hf).mpr ⟨hshort, hnodup⟩
        rcases huse _ harrival block hb r hneed with ⟨c, hc, hdef⟩
        exact Or.inr ⟨c, hsub hc, hdef⟩
  · rintro ⟨hreach, huse⟩
    refine ⟨?_, fun b hb => ?_⟩
    · rintro ⟨path, b⟩ ha block hb r hr
      rcases Block.mem_needs.mp hr with ⟨k, i, hk, hread, hbefore⟩
      have hwalk := ((mem_simpleArrivals_iff hf).mp ha).1
      exact (huse path b block k i r hwalk hb hk hread).resolve_left hbefore
    · -- Only simple paths are followed, and a simple part of the walk ends at `b` too.
      rcases hreach b hb with ⟨path, hwalk⟩
      rcases hwalk.shorten with ⟨short, hshort, hnodup, _⟩
      exact ⟨⟨short, b⟩, (mem_simpleArrivals_iff hf).mpr ⟨hshort, hnodup⟩, rfl⟩

/-- No block has a fault of its own. -/
theorem blockFaults_eq_none_iff :
    (∀ (label : Nat) (b : Block M), f.blocks[label]? = some b → b.fault? f label = none) ↔
      ∀ b ∈ f.blocks, b.Terminated ∧ b.ids.Nodup ∧
        ∀ i ∈ b.code, i.isTerminator = true → ∀ branch ∈ i.branches, branch.Fits f := by
  constructor
  · intro h b hb
    rcases List.getElem?_of_mem hb with ⟨label, hlabel⟩
    exact Block.fault_eq_none_iff.mp (h label b hlabel)
  · exact fun h label b hb => Block.fault_eq_none_iff.mpr (h b (List.mem_of_getElem? hb))

theorem fault_eq_none_iff (hf : 0 < f.size) : f.fault? = none ↔ f.SingleAssignment := by
  unfold fault?
  rw [Option.or_eq_none_iff, Option.or_eq_none_iff, findSome?_zipIdx_eq_none_iff,
    blockFaults_eq_none_iff]
  constructor
  · rintro ⟨hblocks, hdup, hpaths⟩
    have honce := (duplicateAcross_eq_none_iff fun b hb => (hblocks b hb).2.1).mp hdup
    -- The paths are looked at last, when no id is known to be defined twice.
    rcases (pathFault_eq_none_iff hf honce.1).mp hpaths with ⟨hreach, huse⟩
    exact ⟨fun b hb => (hblocks b hb).1, fun b hb => (hblocks b hb).2.2, honce.1, hreach, huse⟩
  · rintro ⟨hterm, hfits, honce, hreach, huse⟩
    have hids : ∀ b ∈ f.blocks, b.ids.Nodup :=
      fun b hb => (List.nodup_flatMap.mp honce).1 b hb
    refine ⟨fun b hb => ⟨hterm b hb, hids b hb, hfits b hb⟩,
      (duplicateAcross_eq_none_iff hids).mpr ⟨honce, by simp⟩, ?_⟩
    exact (pathFault_eq_none_iff hf honce).mpr ⟨hreach, huse⟩

theorem check_eq_ok_iff_fault : f.check = .ok () ↔ f.fault? = none := by
  unfold check
  cases f.fault? with
  | none => simp
  | some cause => simp

/-- In single assignment form, an id is defined in one block. -/
theorem SingleAssignment.block_unique (h : f.SingleAssignment) {b c : Nat} {block other : Block M}
    (hb : f.blocks[b]? = some block) (hc : f.blocks[c]? = some other) {r : Nat}
    (hr : r ∈ block.ids) (hr' : r ∈ other.ids) : b = c :=
  definesId_unique h.once ⟨block, hb, hr⟩ ⟨other, hc, hr'⟩

theorem SingleAssignment.ids_nodup (h : f.SingleAssignment) {block : Block M}
    (hb : block ∈ f.blocks) : block.ids.Nodup :=
  (List.nodup_flatMap.mp h.once).1 block hb

theorem SingleAssignment.exists_walk (h : f.SingleAssignment) {b : Nat} (hb : b < f.size) :
    ∃ path, Walk f.next path b := by
  rcases h.reached b hb with ⟨path, hroute⟩
  exact ⟨path, route_iff.mp hroute⟩

theorem SingleAssignment.defined_of_walk (h : f.SingleAssignment) {path : List Nat} {b : Nat}
    {block : Block M} {k : Nat} {i : Instr M} {r : Nat} (hwalk : Walk f.next path b)
    (hb : f.blocks[b]? = some block) (hk : block.code[k]? = some i) (hr : r ∈ i.readIds) :
    r ∈ block.idsBefore k ∨ ∃ c ∈ path, f.DefinesId c r :=
  h.defined path b block k i r (route_iff.mpr hwalk) hb hk hr

/-- What the check accepts is in single assignment form; without blocks there is
    nothing to say. -/
theorem SingleAssignment.of_check (h : f.check = .ok ()) : f.SingleAssignment := by
  rw [check_eq_ok_iff_fault] at h
  by_cases hempty : f.blocks = []
  · exact ⟨by simp [hempty], by simp [hempty], by simp [hempty], by simp [size, hempty],
      by simp [hempty]⟩
  · exact (fault_eq_none_iff (List.length_pos_iff.mpr hempty)).mp h

/-- The check accepts the functions without blocks and those in single assignment form. -/
theorem check_eq_ok_iff (f : Function M) :
    f.check = .ok () ↔ f.blocks = [] ∨ f.SingleAssignment := by
  rw [check_eq_ok_iff_fault]
  by_cases hempty : f.blocks = []
  · -- Without blocks there is no room for a path either, and no test has anything to look at.
    have hnone : f.fault? = none := by
      simp [fault?, pathFault?, PathWalk.visit, duplicateAcross?, size, hempty]
    exact ⟨fun _ => Or.inl hempty, fun _ => hnone⟩
  · have hf : 0 < f.size := List.length_pos_iff.mpr hempty
    rw [fault_eq_none_iff hf]
    exact ⟨Or.inr, fun h => h.resolve_left hempty⟩

/-- A loop that counts down. Its body first reads register `first`: 0 comes from the entry
    block and 2 from the turn before. -/
def loopFrom (first : Nat) : Function flat :=
  let r (k : Nat) : VReg flat := ⟨k, FlatClass.mk 4⟩
  ⟨"loopFrom", [
    ⟨[], [Sample.assign .copy (r 0) [.imm 3], Sample.perform .jmp [.block 1]]⟩,
    ⟨[], [Sample.assign .sub (r 1) [.ofVReg (r first), .imm 1],
      Sample.assign .copy (r 2) [.ofVReg (r 1)],
      Sample.perform .jnz [.ofVReg (r 1), .block 1], Sample.perform .jmp [.block 2]]⟩,
    ⟨[], [Sample.perform .ret [.ofVReg (r 2)]]⟩]⟩

/-- The loop has a route for every number of turns, and on all of them the first read is
    defined. What a turn leaves to the next is missing on the first one. -/
theorem loopFrom_singleAssignment :
    (loopFrom 0).SingleAssignment ∧ (∀ n, (loopFrom 0).Route (List.replicate n 1 ++ [0]) 1) ∧
      (loopFrom 2).check = .error (.undefinedUse 2 1) ∧ ¬ (loopFrom 2).SingleAssignment := by
  have haccept := (check_eq_ok_iff (loopFrom 0)).mp (by decide)
  have hreject : (loopFrom 2).check = .error (.undefinedUse 2 1) := by decide
  refine ⟨haccept.resolve_left (by decide), fun n => ?_, hreject, fun h => ?_⟩
  · induction n with
    | zero => exact .step .start ⟨_, rfl, ⟨_, List.mem_singleton_self _, by decide⟩, by decide⟩
    | succ n ih =>
        exact .step ih ⟨_, rfl, ⟨_, List.mem_cons_self, by decide⟩, by decide⟩
  · have hok := (check_eq_ok_iff (loopFrom 2)).mpr (Or.inr h)
    rw [hreject] at hok
    exact absurd hok (by simp)

end Function

end RegisterColoring
