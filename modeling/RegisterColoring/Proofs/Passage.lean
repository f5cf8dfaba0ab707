import RegisterColoring.Evaluation
import RegisterColoring.Proofs.Shape

/-!
# Passing Through Blocks

A run counted in blocks instead of instructions. Inside a block there is nothing
to count: its code is a list, and `Function.leave?` follows it to the jump or the
return that ends the stay. What remains of a run is the sequence of blocks it
enters, and that is the level on which two functions are compared.

Comparing them needs a relation between stores at the entry of a block. If one
function's stay in a block is answered by the other's, possibly with blocks in
between that the first does not have, their runs return the same values.
`returns_of_simulation` is the one-sided form, in which only what the first
function does is answered, and `returns_iff_of_matches` the two-sided one, in
which it also has to fail when the second does.

## Main definitions

* `Exit`: How a stay in a block ends.
* `Function.leave?`: Run code up to where it leaves the block.
* `Function.goFor`: Run a number of blocks.
* `Function.Leads`: Control gets from one block to another.
* `Function.Matches`: How the ends of stays in two functions fit together.

## Theorems

* `Function.returns_iff_goFor`: A run is a run counted in blocks.
* `Function.goFor_of_simulation`, `Function.goFor_of_matches`: Runs from related stores.
* `Function.returns_of_simulation`: What one function returns, another does.
* `Function.returns_iff_of_matches`: Two functions return the same values.
-/

namespace RegisterColoring

variable {M : Machine}

namespace Store

@[simp] theorem regs_setReg (s : Store M) (r q : Register M) (x : Int64) :
    (s.setReg r x).regs q = if q = r then some x else s.regs q :=
  rfl

@[simp] theorem slots_setReg (s : Store M) (r : Register M) (x : Int64) :
    (s.setReg r x).slots = s.slots :=
  rfl

@[simp] theorem slots_setSlot (s : Store M) (k j : Nat) (x : Int64) :
    (s.setSlot k x).slots j = if j = k then some x else s.slots j :=
  rfl

@[simp] theorem setInputs_nil_left (s : Store M) (args : List Int64) : s.setInputs [] args = s := by
  simp [setInputs]

@[simp] theorem setInputs_cons (s : Store M) (v : VReg M) (inputs : List (VReg M)) (x : Int64)
    (args : List Int64) :
    s.setInputs (v :: inputs) (x :: args) = (s.setReg (.virtual v) x).setInputs inputs args :=
  rfl

@[simp] theorem slots_setInputs (s : Store M) (inputs : List (VReg M)) (args : List Int64) :
    (s.setInputs inputs args).slots = s.slots := by
  induction inputs generalizing s args with
  | nil => simp
  | cons v inputs ih =>
      cases args with
      | nil => rfl
      | cons x args => rw [setInputs_cons, ih, slots_setReg]

/-- Registers that are not inputs keep their values. -/
theorem regs_setInputs_of_not_mem (s : Store M) {inputs : List (VReg M)} (args : List Int64)
    {r : Register M} (hr : ∀ v ∈ inputs, r ≠ .virtual v) :
    (s.setInputs inputs args).regs r = s.regs r := by
  induction inputs generalizing s args with
  | nil => simp
  | cons v inputs ih =>
      cases args with
      | nil => rfl
      | cons x args =>
          rw [setInputs_cons, ih _ _ fun w hw => hr w (by simp [hw]), regs_setReg,
            if_neg (hr v (by simp))]

/-- Of different inputs, each gets its own argument. -/
theorem regs_setInputs_of_mem (s : Store M) {inputs : List (VReg M)} {args : List Int64}
    (hnodup : inputs.Nodup) {v : VReg M} {x : Int64} (h : (v, x) ∈ inputs.zip args) :
    (s.setInputs inputs args).regs (.virtual v) = some x := by
  induction inputs generalizing s args with
  | nil => exact absurd h (by simp)
  | cons w inputs ih =>
      cases args with
      | nil => exact absurd h (by simp)
      | cons y args =>
          have hsplit := List.nodup_cons.mp hnodup
          rw [setInputs_cons]
          rw [List.zip_cons_cons, List.mem_cons] at h
          rcases h with h | h
          · -- The inputs that follow are others, so the value stays.
            rw [Prod.mk.injEq] at h
            have hout : ∀ u ∈ inputs, (Register.virtual v : Register M) ≠ .virtual u := by
              intro u hu heq
              rw [Register.virtual.injEq, h.1] at heq
              exact hsplit.1 (heq ▸ hu)
            rw [regs_setInputs_of_not_mem _ _ hout, regs_setReg, if_pos (by rw [h.1]), h.2]
          · exact ih _ hsplit.2 h

end Store

/-- How a stay in a block ends. -/
inductive Exit (M : Machine) where
  /-- Control enters a block. -/
  | enter (s : Store M) (block : Nat)
  /-- The function returns a value. -/
  | done (x : Int64)

namespace Function

/-- Run code up to the instruction that leaves the block. There is no exit if the
    run fails or comes to the end of the code. -/
def leave? (f : Function M) : Store M → List (Instr M) → Option (Exit M)
  | _, [] => none
  | s, i :: rest =>
      match i.effect? f s with
      | none => none
      | some (.next t) => f.leave? t rest
      | some (.enter t b) => some (.enter t b)
      | some (.done x) => some (.done x)

/-- Run at most `n` blocks, starting with block `b`. -/
def goFor (f : Function M) : (n : Nat) → Store M → Nat → Option Int64
  | 0, _, _ => none
  | n + 1, s, b =>
      match f.leave? s (f.codeOf b) with
      | none => none
      | some (.enter t c) => f.goFor n t c
      | some (.done x) => some x

/-- Control gets from block `b` to block `c`, over one block or more. -/
inductive Leads (f : Function M) : Store M → Nat → Store M → Nat → Prop where
  | direct {s t : Store M} {b c : Nat} (h : f.leave? s (f.codeOf b) = some (.enter t c)) :
      f.Leads s b t c
  | through {s u t : Store M} {b d c : Nat} (h : f.leave? s (f.codeOf b) = some (.enter u d))
      (rest : f.Leads u d t c) : f.Leads s b t c

variable {f g : Function M}

/-- A run that returns first leaves the block it is in. -/
theorem leave_of_runFor {n : Nat} {s : Store M} {code : List (Instr M)} {x : Int64}
    (h : f.runFor n s code = some x) :
    f.leave? s code = some (.done x) ∨
      ∃ t b m, m < n ∧ f.leave? s code = some (.enter t b) ∧
        f.runFor m t (f.codeOf b) = some x := by
  induction n generalizing s code with
  | zero => exact absurd h (by simp [runFor])
  | succ n ih =>
      cases code with
      | nil => exact absurd h (by simp [runFor])
      | cons i rest =>
          simp only [runFor] at h
          simp only [leave?]
          cases he : i.effect? f s with
          | none => rw [he] at h; exact absurd h (by simp)
          | some effect =>
              rw [he] at h
              cases effect with
              -- The stay goes on with the rest of the code.
              | next t =>
                  rcases ih h with hdone | ⟨u, b, m, hm, hleave, hrun⟩
                  · exact Or.inl hdone
                  · exact Or.inr ⟨u, b, m, by omega, hleave, hrun⟩
              | enter t b => exact Or.inr ⟨t, b, n, by omega, rfl, h⟩
              | done y => exact Or.inl (by simpa using h)

/-- Leaving a block takes some number of instructions. -/
theorem runFor_of_leave {s : Store M} {code : List (Instr M)} {e : Exit M}
    (h : f.leave? s code = some e) :
    match e with
    | .done x => ∃ n, f.runFor n s code = some x
    | .enter t b => ∃ k, ∀ n, f.runFor (n + k) s code = f.runFor n t (f.codeOf b) := by
  induction code generalizing s with
  | nil => exact absurd h (by simp [leave?])
  | cons i rest ih =>
      simp only [leave?] at h
      cases he : i.effect? f s with
      | none => rw [he] at h; exact absurd h (by simp)
      | some effect =>
          rw [he] at h
          cases effect with
          | next t =>
              -- One more step than the rest takes.
              have := ih h
              cases e with
              | done x =>
                  rcases this with ⟨n, hn⟩
                  exact ⟨n + 1, by simp only [runFor, he]; exact hn⟩
              | enter u b =>
                  rcases this with ⟨k, hk⟩
                  refine ⟨k + 1, fun n => ?_⟩
                  rw [← hk n, ← Nat.add_assoc]
                  simp only [runFor, he]
          | enter t b =>
              have heq : e = .enter t b := by simpa using h.symm
              subst heq
              exact ⟨1, fun n => by simp only [runFor, he]⟩
          | done y =>
              have heq : e = .done y := by simpa using h.symm
              subst heq
              exact ⟨1, by simp only [runFor, he]⟩

theorem goFor_of_runFor {n : Nat} {s : Store M} {b : Nat} {x : Int64}
    (h : f.runFor n s (f.codeOf b) = some x) : ∃ m, f.goFor m s b = some x := by
  induction n using Nat.strongRecOn generalizing s b with
  | _ n ih =>
      rcases leave_of_runFor h with hdone | ⟨t, c, m, hm, hleave, hrun⟩
      · exact ⟨1, by simp only [goFor, hdone]⟩
      · rcases ih m hm hrun with ⟨k, hk⟩
        exact ⟨k + 1, by simp only [goFor, hleave]; exact hk⟩

theorem runFor_of_goFor {n : Nat} {s : Store M} {b : Nat} {x : Int64}
    (h : f.goFor n s b = some x) : ∃ m, f.runFor m s (f.codeOf b) = some x := by
  induction n generalizing s b with
  | zero => exact absurd h (by simp [goFor])
  | succ n ih =>
      simp only [goFor] at h
      cases hleave : f.leave? s (f.codeOf b) with
      | none => rw [hleave] at h; exact absurd h (by simp)
      | some e =>
          rw [hleave] at h
          have hrun := runFor_of_leave hleave
          cases e with
          | done y =>
              have heq : y = x := by simpa using h
              subst heq
              exact hrun
          | enter t c =>
              -- The steps in this block come on top of those after it.
              rcases ih h with ⟨m, hm⟩
              rcases hrun with ⟨k, hk⟩
              exact ⟨m + k, by rw [hk m]; exact hm⟩

/-- A function returns a value if it does so after some number of blocks. -/
theorem returns_iff_goFor {x : Int64} : f.Returns x ↔ ∃ n, f.goFor n .empty 0 = some x := by
  constructor
  · rintro ⟨n, hn⟩
    exact goFor_of_runFor hn
  · rintro ⟨n, hn⟩
    exact runFor_of_goFor hn

namespace Leads

theorem goFor_forward {s t : Store M} {b c : Nat} (h : f.Leads s b t c) {n : Nat} {x : Int64}
    (hn : f.goFor n t c = some x) : ∃ m, f.goFor m s b = some x := by
  induction h with
  | direct h => exact ⟨n + 1, by simp only [goFor, h]; exact hn⟩
  | through h _ ih =>
      rcases ih hn with ⟨m, hm⟩
      exact ⟨m + 1, by simp only [goFor, h]; exact hm⟩

theorem goFor_backward {s t : Store M} {b c : Nat} (h : f.Leads s b t c) {n : Nat} {x : Int64}
    (hn : f.goFor n s b = some x) : ∃ m < n, f.goFor m t c = some x := by
  induction h generalizing n with
  | direct h =>
      cases n with
      | zero => exact absurd hn (by simp [goFor])
      | succ n =>
          simp only [goFor, h] at hn
          exact ⟨n, by omega, hn⟩
  | through h _ ih =>
      cases n with
      | zero => exact absurd hn (by simp [goFor])
      | succ n =>
          simp only [goFor, h] at hn
          rcases ih hn with ⟨m, hm, hgo⟩
          exact ⟨m, by omega, hgo⟩

end Leads

/-- If every stay of `f` in a block that ends is answered by `g`, then from related
    stores `g` comes to what `f` comes to. -/
theorem goFor_of_simulation {R : Nat → Store M → Store M → Prop}
    (done : ∀ b s t x, R b s t → f.leave? s (f.codeOf b) = some (.done x) →
      g.leave? t (g.codeOf b) = some (.done x))
    (enter : ∀ b s t s' c, R b s t → f.leave? s (f.codeOf b) = some (.enter s' c) →
      ∃ t', g.Leads t b t' c ∧ R c s' t')
    {n b : Nat} {s t : Store M} {x : Int64} (hrel : R b s t) (hgo : f.goFor n s b = some x) :
    ∃ m, g.goFor m t b = some x := by
  induction n generalizing b s t with
  | zero => exact absurd hgo (by simp [goFor])
  | succ n ih =>
      simp only [goFor] at hgo
      cases hleave : f.leave? s (f.codeOf b) with
      | none => rw [hleave] at hgo; exact absurd hgo (by simp)
      | some e =>
          rw [hleave] at hgo
          cases e with
          | done y =>
              have heq : y = x := by simpa using hgo
              subst heq
              exact ⟨1, by simp only [goFor, done b s t y hrel hleave]⟩
          | enter s' c =>
              -- However many blocks `g` takes to get to `c`, the rest goes on from there.
              rcases enter b s t s' c hrel hleave with ⟨t', hleads, hrel'⟩
              rcases ih hrel' hgo with ⟨m, hm⟩
              exact hleads.goFor_forward hm

/-- A function that answers the stays of `f` returns what `f` returns. -/
theorem returns_of_simulation {R : Nat → Store M → Store M → Prop}
    (start : R 0 .empty .empty)
    (done : ∀ b s t x, R b s t → f.leave? s (f.codeOf b) = some (.done x) →
      g.leave? t (g.codeOf b) = some (.done x))
    (enter : ∀ b s t s' c, R b s t → f.leave? s (f.codeOf b) = some (.enter s' c) →
      ∃ t', g.Leads t b t' c ∧ R c s' t')
    {x : Int64} (h : f.Returns x) : g.Returns x := by
  rcases returns_iff_goFor.mp h with ⟨n, hn⟩
  exact returns_iff_goFor.mpr (goFor_of_simulation done enter start hn)

/-- How the ends of stays in two functions fit together: both fail, both return
    the same value, or both go on to one block, the second perhaps over blocks of
    its own. -/
inductive Matches (g : Function M) (R : Nat → Store M → Store M → Prop) :
    Option (Exit M) → Option (Exit M) → Prop where
  | fail : Matches g R none none
  | done (x : Int64) : Matches g R (some (.done x)) (some (.done x))
  | enter {s t : Store M} {c : Nat} (rel : R c s t) :
      Matches g R (some (.enter s c)) (some (.enter t c))
  | detour {s u t : Store M} {d c : Nat} (leads : g.Leads u d t c) (rel : R c s t) :
      Matches g R (some (.enter s c)) (some (.enter u d))

namespace Matches

variable {R : Nat → Store M → Store M → Prop} {e' : Option (Exit M)}

theorem eq_of_done {x : Int64} (h : Matches g R (some (.done x)) e') : e' = some (.done x) := by
  cases h
  rfl

theorem eq_of_done_right {x : Int64} {e : Option (Exit M)}
    (h : Matches g R e (some (.done x))) : e = some (.done x) := by
  cases h
  rfl

/-- If the first function goes on to a block, the second gets there. -/
theorem leads_of_enter {s : Store M} {c : Nat} (h : Matches g R (some (.enter s c)) e')
    {t : Store M} {b : Nat} (hleave : g.leave? t (g.codeOf b) = e') :
    ∃ t', g.Leads t b t' c ∧ R c s t' := by
  cases h with
  | enter rel => exact ⟨_, .direct hleave, rel⟩
  | detour leads rel => exact ⟨_, .through hleave leads, rel⟩

/-- If the second function leaves a block for another one, so does the first. -/
theorem exists_enter {u : Store M} {d : Nat} {e : Option (Exit M)}
    (h : Matches g R e (some (.enter u d))) : ∃ s c, e = some (.enter s c) := by
  cases h with
  | enter rel => exact ⟨_, _, rfl⟩
  | detour leads rel => exact ⟨_, _, rfl⟩

/-- A relation may be replaced by one that holds wherever the first function goes. -/
theorem imp {R' : Nat → Store M → Store M → Prop} {e : Option (Exit M)}
    (h : Matches g R e e')
    (himp : ∀ c s t, e = some (.enter s c) → R c s t → R' c s t) : Matches g R' e e' := by
  cases h with
  | fail => exact .fail
  | done x => exact .done x
  | enter rel => exact .enter (himp _ _ _ rfl rel)
  | detour leads rel => exact .detour leads (himp _ _ _ rfl rel)

end Matches

/-- Where stays match, what the second function comes to the first comes to. A
    detour takes blocks of the second function, so its run only gets shorter. -/
theorem goFor_of_matches {R : Nat → Store M → Store M → Prop}
    (step : ∀ b s t, R b s t → Matches g R (f.leave? s (f.codeOf b)) (g.leave? t (g.codeOf b)))
    {n b : Nat} {s t : Store M} {x : Int64} (hrel : R b s t) (hgo : g.goFor n t b = some x) :
    ∃ m, f.goFor m s b = some x := by
  -- On the number of blocks that the second run has left, since it may take several for one.
  induction n using Nat.strongRecOn generalizing b s t with
  | _ n ih =>
      have hstep := step b s t hrel
      cases n with
      | zero => exact absurd hgo (by simp [goFor])
      | succ n =>
          cases hleave : g.leave? t (g.codeOf b) with
          | none => simp [goFor, hleave] at hgo
          | some e =>
              rw [hleave] at hstep
              cases e with
              | done y =>
                  simp only [goFor, hleave] at hgo
                  exact ⟨1, by simp only [goFor, hstep.eq_of_done_right]; exact hgo⟩
              | enter u d =>
                  rcases hstep.exists_enter with ⟨s', c, hfirst⟩
                  rw [hfirst] at hstep
                  -- The first run enters its next block, which the second one reaches on the way.
                  rcases hstep.leads_of_enter hleave with ⟨t', hleads, hrel'⟩
                  rcases hleads.goFor_backward hgo with ⟨m, hm, hgo'⟩
                  rcases ih m hm hrel' hgo' with ⟨k, hk⟩
                  exact ⟨k + 1, by simp only [goFor, hfirst]; exact hk⟩

/-- Functions whose stays match return the same values. -/
theorem returns_iff_of_matches {R : Nat → Store M → Store M → Prop}
    (start : R 0 .empty .empty)
    (step : ∀ b s t, R b s t →
      Matches g R (f.leave? s (f.codeOf b)) (g.leave? t (g.codeOf b))) {x : Int64} :
    f.Returns x ↔ g.Returns x := by
  constructor
  · refine returns_of_simulation start (fun b s t y hrel hleave => ?_)
      (fun b s t s' c hrel hleave => ?_)
    · have hstep := step b s t hrel
      rw [hleave] at hstep
      exact hstep.eq_of_done
    · have hstep := step b s t hrel
      rw [hleave] at hstep
      exact hstep.leads_of_enter rfl
  · intro h
    rcases returns_iff_goFor.mp h with ⟨n, hn⟩
    exact returns_iff_goFor.mpr (goFor_of_matches step start hn)

end Function

end RegisterColoring
