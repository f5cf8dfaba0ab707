import RegisterColoring.ControlFlow

/-!
# Walks and Simple Paths

Control passes from block to block along a walk, which may go around a loop any
number of times. The analyses look at far less: `Function.arrivals` lists the
steps of the simple paths only, and stops wherever a path meets itself.

What makes that enough is that a walk can be cut short. Whenever it comes back
to a block, everything since the earlier visit can be dropped, and what is left
is a walk to the same block over some of the same blocks. Cut until no block is
left twice, it is a simple path, and every simple path is among the arrivals.

A walk is written like the path of an arrival, as the list of the blocks before
the last one with the latest first, so that one more step is one more cons.

## Main definitions

* `Walk`: The blocks visited on the way from block 0 to another block.
* `Function.next`: The existing blocks that control may pass to.
* `Function.Route`: The walks of control by what the code refers to.

## Theorems

* `Function.route_iff`: Routes are walks of the control flow graph.
* `Walk.tail_of_append`: A walk up to one of its blocks is a walk.
* `Walk.shorten`: A walk contains a simple path to the same block.
* `mem_arrivalsFrom_of_walk`: The steps of every simple path are listed.
* `walk_of_mem_arrivalsFrom`: Only steps of simple paths are listed.
* `mem_arrivals_iff`: The arrivals of a function are its simple paths.
-/

namespace RegisterColoring

variable {M : Machine}

/-- A walk from block 0: the blocks visited so far, the latest first, and the
    block where control arrives. -/
inductive Walk (succ : Nat → List Nat) : List Nat → Nat → Prop where
  | start : Walk succ [] 0
  | step {path : List Nat} {b c : Nat} (walk : Walk succ path b) (edge : c ∈ succ b) :
      Walk succ (b :: path) c

/-- The existing blocks that control may pass to from block `b`. -/
def Function.next (f : Function M) (b : Nat) : List Nat :=
  f.flow.succ b

theorem Function.size_flow (f : Function M) : f.flow.size = f.size := by
  simp [Function.flow, Function.size, Digraph.size]

theorem Block.mem_successors {b : Block M} {c : Nat} :
    c ∈ b.successors ↔ ∃ i ∈ b.run, c ∈ i.references := by
  rw [Block.successors, mem_ascending below_apart, List.mem_flatMap]

theorem Function.mem_next {f : Function M} {b c : Nat} :
    c ∈ f.next b ↔
      ∃ block, f.blocks[b]? = some block ∧ (∃ i ∈ block.run, c ∈ i.references) ∧ c < f.size := by
  unfold Function.next Function.flow Digraph.succ
  rw [List.getElem?_toArray, List.getElem?_map]
  cases hb : f.blocks[b]? with
  | none => simp
  | some block =>
      simp only [Option.map_some, List.mem_filter, Block.mem_successors, below,
        decide_eq_true_eq, Option.some.injEq, exists_eq_left']

/-- Control may pass from block `b` to block `c`: one of the terminators that end `b` refers to
    it, and it exists. -/
def Function.Passes (f : Function M) (b c : Nat) : Prop :=
  ∃ block, f.blocks[b]? = some block ∧ (∃ i ∈ block.run, c ∈ i.references) ∧ c < f.size

/-- A walk of control from block 0, by what the code refers to: the blocks visited so far, the
    latest first, and the block where control arrives. -/
inductive Function.Route (f : Function M) : List Nat → Nat → Prop where
  | start : f.Route [] 0
  | step {path : List Nat} {b c : Nat} (route : f.Route path b) (passes : f.Passes b c) :
      f.Route (b :: path) c

/-- The graph of a function has the walks of its control. -/
theorem Function.route_iff {f : Function M} {path : List Nat} {b : Nat} :
    f.Route path b ↔ Walk f.next path b := by
  constructor
  · intro h
    induction h with
    | start => exact .start
    | step _ passes ih => exact .step ih (Function.mem_next.mpr passes)
  · intro h
    induction h with
    | start => exact .start
    | step _ edge ih => exact .step ih (Function.mem_next.mp edge)

theorem Function.lt_size_of_mem_next {f : Function M} {b c : Nat} (h : c ∈ f.next b) :
    c < f.size := by
  rcases Function.mem_next.mp h with ⟨_, _, _, hlt⟩
  exact hlt

theorem Function.next_eq (f : Function M) (b : Nat) :
    f.next b = ((f.blocks.map Block.successors)[b]?.getD []).filter (below · f.size) := by
  unfold Function.next Function.flow Digraph.succ
  rw [List.getElem?_toArray, List.getElem?_map, List.getElem?_map]
  cases f.blocks[b]? with
  | none => rfl
  | some block => rfl

/-- Only the successors of the blocks count for the control flow. -/
theorem Function.next_congr {f g : Function M}
    (h : g.blocks.map Block.successors = f.blocks.map Block.successors) : g.next = f.next := by
  have hsize : g.size = f.size := by simpa [Function.size] using congrArg List.length h
  funext b
  rw [Function.next_eq, Function.next_eq, h, hsize]

namespace Walk

variable {succ : Nat → List Nat} {path : List Nat} {b c : Nat}

/-- A walk up to an earlier one of its blocks is a walk. -/
theorem tail_of_append {later earlier : List Nat}
    (h : Walk succ (later ++ c :: earlier) b) : Walk succ earlier c := by
  induction later generalizing b with
  | nil =>
      cases h with
      | step walk _ => exact walk
  | cons d later ih =>
      cases h with
      | step walk _ => exact ih walk

theorem exists_of_mem (h : Walk succ path b) (hc : c ∈ path) :
    ∃ earlier, Walk succ earlier c ∧ earlier ⊆ path := by
  rcases List.append_of_mem hc with ⟨later, earlier, rfl⟩
  exact ⟨earlier, h.tail_of_append, fun x hx => by simp [hx]⟩

/-- A walk contains a simple path to the same block. Where the last step comes
    back to a block of the path, the path is cut at that block. -/
theorem shorten (h : Walk succ path b) :
    ∃ short, Walk succ short b ∧ (b :: short).Nodup ∧ short ⊆ path := by
  induction h with
  | start => exact ⟨[], .start, by simp, by simp⟩
  | @step path b c _ edge ih =>
      rcases ih with ⟨short, hwalk, hnodup, hsub⟩
      have hsub' : b :: short ⊆ b :: path := List.cons_subset_cons b hsub
      by_cases hc : c ∈ b :: short
      · -- The step closes a loop: everything since the visit to `c` is dropped.
        rcases List.append_of_mem hc with ⟨later, earlier, heq⟩
        have hlong : Walk succ (b :: short) c := .step hwalk edge
        rw [heq] at hlong hnodup hsub'
        refine ⟨earlier, hlong.tail_of_append, (List.nodup_append.mp hnodup).2.1, ?_⟩
        exact fun x hx => hsub' (by simp [hx])
      · exact ⟨b :: short, .step hwalk edge, List.nodup_cons.mpr ⟨hc, hnodup⟩, hsub'⟩

/-- Every block after the first one of a walk is a successor of some block. -/
theorem lt_of_succ {n : Nat} (hn : 0 < n) (hsucc : ∀ b c, c ∈ succ b → c < n)
    (h : Walk succ path b) : b < n := by
  cases h with
  | start => exact hn
  | step _ edge => exact hsucc _ _ edge

theorem path_lt {n : Nat} (hn : 0 < n) (hsucc : ∀ b c, c ∈ succ b → c < n)
    (h : Walk succ path b) : ∀ x ∈ path, x < n := by
  intro x hx
  rcases h.exists_of_mem hx with ⟨_, hwalk, _⟩
  exact hwalk.lt_of_succ hn hsucc

end Walk

/-- The listing starts with the arrival it is asked for. -/
theorem self_mem_arrivalsFrom (succ : Nat → List Nat) (room : Nat) (path : List Nat) (b : Nat) :
    ⟨path, b⟩ ∈ arrivalsFrom succ room path b := by
  cases room with
  | zero => simp [arrivalsFrom]
  | succ room => simp [arrivalsFrom]

/-- Every listed arrival is a walk whose path visits no block twice. -/
theorem walk_of_mem_arrivalsFrom {succ : Nat → List Nat} {room : Nat} {path : List Nat} {b : Nat}
    {a : Arrival} (hwalk : Walk succ path b) (hnodup : path.Nodup)
    (h : a ∈ arrivalsFrom succ room path b) : Walk succ a.path a.block ∧ a.path.Nodup := by
  induction room generalizing path b with
  | zero =>
      rw [arrivalsFrom, List.mem_singleton] at h
      rw [h]
      exact ⟨hwalk, hnodup⟩
  | succ room ih =>
      rw [arrivalsFrom, List.mem_cons] at h
      rcases h with rfl | h
      · exact ⟨hwalk, hnodup⟩
      · by_cases hb : path.contains b
        · -- The path meets itself here, and nothing is listed beyond.
          rw [if_pos hb] at h
          simp at h
        · rw [if_neg hb, List.mem_flatMap] at h
          rcases h with ⟨c, hc, ha⟩
          have hnew : b ∉ path := by simpa using hb
          exact ih (.step hwalk hc) (List.nodup_cons.mpr ⟨hnew, hnodup⟩) ha

/-- What is listed from the end of a simple path is listed from its start. The
    room that is left is what the path has not used. -/
theorem arrivalsFrom_subset {succ : Nat → List Nat} {n : Nat} {path : List Nat} {b : Nat}
    (hwalk : Walk succ path b) (hnodup : path.Nodup) (hlt : ∀ x ∈ path, x < n) :
    arrivalsFrom succ (n - path.length) path b ⊆ arrivalsFrom succ n [] 0 := by
  induction hwalk with
  | start => exact List.Subset.refl _
  | @step path b c _ edge ih =>
      have hnodup' := List.nodup_cons.mp hnodup
      -- The path with `b` fits below `n`, so without `b` there is room for one more.
      have hlen : (b :: path).length ≤ n := by
        have hsub : (b :: path) ⊆ List.range n := fun x hx => List.mem_range.mpr (hlt x hx)
        simpa using List.Nodup.length_le_of_subset hnodup hsub
      have hroom : n - path.length = n - (b :: path).length + 1 := by
        simp only [List.length_cons] at hlen ⊢
        omega
      refine List.Subset.trans ?_ (ih hnodup'.2 (fun x hx => hlt x (List.mem_cons_of_mem _ hx)))
      intro a ha
      have hb : path.contains b = false := by simpa using hnodup'.1
      rw [hroom, arrivalsFrom, hb]
      simp only [Bool.false_eq_true, if_false, List.mem_cons, List.mem_flatMap]
      exact Or.inr ⟨c, edge, ha⟩

theorem mem_arrivalsFrom_of_walk {succ : Nat → List Nat} {n : Nat} {path : List Nat} {b : Nat}
    (hwalk : Walk succ path b) (hnodup : path.Nodup) (hlt : ∀ x ∈ path, x < n) :
    ⟨path, b⟩ ∈ arrivalsFrom succ n [] 0 :=
  arrivalsFrom_subset hwalk hnodup hlt (self_mem_arrivalsFrom _ _ _ _)

namespace Function

variable {f : Function M}

theorem walk_lt_size (hf : 0 < f.size) {path : List Nat} {b : Nat} (h : Walk f.next path b) :
    b < f.size :=
  h.lt_of_succ hf fun _ _ => lt_size_of_mem_next

theorem walk_path_lt_size (hf : 0 < f.size) {path : List Nat} {b : Nat}
    (h : Walk f.next path b) : ∀ x ∈ path, x < f.size :=
  h.path_lt hf fun _ _ => lt_size_of_mem_next

/-- A function with a block takes the branch that lists from block 0. -/
theorem arrivals_eq (hf : 0 < f.size) : f.arrivals = arrivalsFrom f.next f.size [] 0 := by
  simp only [arrivals, size_flow]
  exact if_neg (by omega)

/-- The arrivals of a function are the steps of its simple paths. -/
theorem mem_arrivals_iff (hf : 0 < f.size) {path : List Nat} {b : Nat} :
    ⟨path, b⟩ ∈ f.arrivals ↔ Walk f.next path b ∧ path.Nodup := by
  rw [arrivals_eq hf]
  constructor
  · exact fun h => walk_of_mem_arrivalsFrom .start List.nodup_nil h
  · rintro ⟨hwalk, hnodup⟩
    exact mem_arrivalsFrom_of_walk hwalk hnodup (walk_path_lt_size hf hwalk)

end Function

end RegisterColoring
