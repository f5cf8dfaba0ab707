/-!
# Ascending Lists

Answers list registers, blocks and ranges in ascending order and each of them
once. `insertAscending` keeps such a list in order under a strict comparison,
and `ascending` builds one from any list. An element that compares neither
below nor above one already there counts as that element. `inOrder` sorts a list
and keeps all its elements.

## Main definitions

* `insertAscending`: Put one element in its place.
* `ascending`: The elements of a list, in order and without repeats.
* `inOrder`: The elements of a list, in order and with repeats.

## Theorems

* `mem_ascending_of_apart`, `mem_ascending`: Sorting keeps exactly the elements of a list.
* `pairwise_ascending`: The result is in order.
-/

namespace RegisterColoring

variable {α : Type}

/-- Put `a` in its place in an ascending list, unless it is already there. -/
def insertAscending (lt : α → α → Bool) (a : α) : List α → List α
  | [] => [a]
  | b :: l =>
      if lt a b then a :: b :: l
      else if lt b a then b :: insertAscending lt a l
      else b :: l

/-- The elements of a list in ascending order, each of them once. -/
def ascending (lt : α → α → Bool) (l : List α) : List α :=
  l.foldr (insertAscending lt) []

/-- Put `a` in front of the first element that is not below it. -/
def insertInOrder (lt : α → α → Bool) (a : α) : List α → List α
  | [] => [a]
  | b :: l => if lt b a then b :: insertInOrder lt a l else a :: b :: l

/-- The elements of a list in ascending order. -/
def inOrder (lt : α → α → Bool) (l : List α) : List α :=
  l.foldr (insertInOrder lt) []

/-- The strict order of numbers as a test. -/
def below (a b : Nat) : Bool :=
  decide (a < b)

/-- Inserting adds the element and keeps the others, if the comparison tells it from them. -/
theorem mem_insertAscending {lt : α → α → Bool} {a x : α} {l : List α}
    (apart : ∀ b ∈ l, lt a b = false → lt b a = false → a = b) :
    x ∈ insertAscending lt a l ↔ x = a ∨ x ∈ l := by
  induction l with
  | nil => simp [insertAscending]
  | cons b l ih =>
      unfold insertAscending
      split
      · simp
      · rename_i hab
        split
        · rw [List.mem_cons, ih fun c hc => apart c (List.mem_cons_of_mem b hc), List.mem_cons]
          exact or_left_comm
        · rename_i hba
          have same : a = b :=
            apart b List.mem_cons_self (by simpa using hab) (by simpa using hba)
          subst same
          simp

/-- Sorting keeps exactly the elements of the list, if the comparison tells them apart. -/
theorem mem_ascending_of_apart {lt : α → α → Bool} {x : α} {l : List α}
    (apart : ∀ a ∈ l, ∀ b ∈ l, lt a b = false → lt b a = false → a = b) :
    x ∈ ascending lt l ↔ x ∈ l := by
  induction l generalizing x with
  | nil => simp [ascending]
  | cons a l ih =>
      have rest : ∀ {x}, x ∈ ascending lt l ↔ x ∈ l := ih fun b hb c hc =>
        apart b (List.mem_cons_of_mem a hb) c (List.mem_cons_of_mem a hc)
      have step : ascending lt (a :: l) = insertAscending lt a (ascending lt l) := rfl
      rw [step, mem_insertAscending fun b hb =>
        apart a List.mem_cons_self b (List.mem_cons_of_mem a (rest.mp hb)), rest, List.mem_cons]

/-- Sorting keeps exactly the elements of any list under a comparison that tells different
    elements apart. -/
theorem mem_ascending {lt : α → α → Bool}
    (apart : ∀ a b, lt a b = false → lt b a = false → a = b) {x : α} {l : List α} :
    x ∈ ascending lt l ↔ x ∈ l :=
  mem_ascending_of_apart fun a _ b _ => apart a b

/-- Inserting adds nothing but the element. -/
theorem mem_of_mem_insertAscending {lt : α → α → Bool} {a x : α} {l : List α}
    (h : x ∈ insertAscending lt a l) : x = a ∨ x ∈ l := by
  induction l with
  | nil => exact Or.inl (List.mem_singleton.mp h)
  | cons b l ih =>
      unfold insertAscending at h
      split at h
      · exact List.mem_cons.mp h
      · split at h
        · rcases List.mem_cons.mp h with rfl | h
          · exact Or.inr List.mem_cons_self
          · exact (ih h).imp_right (List.mem_cons_of_mem b)
        · exact Or.inr h

/-- Inserting keeps a list in order. -/
theorem pairwise_insertAscending {lt : α → α → Bool}
    (trans : ∀ a b c, lt a b = true → lt b c = true → lt a c = true) (a : α) {l : List α}
    (h : l.Pairwise fun x y => lt x y = true) :
    (insertAscending lt a l).Pairwise fun x y => lt x y = true := by
  induction l with
  | nil => simp [insertAscending]
  | cons b l ih =>
      have hb := List.pairwise_cons.mp h
      unfold insertAscending
      split
      · rename_i hab
        refine List.pairwise_cons.mpr ⟨fun x hx => ?_, h⟩
        rcases List.mem_cons.mp hx with rfl | hx
        · exact hab
        · exact trans a b x hab (hb.1 x hx)
      · split
        · rename_i hba
          refine List.pairwise_cons.mpr ⟨fun x hx => ?_, ih hb.2⟩
          rcases mem_of_mem_insertAscending hx with rfl | hx
          · exact hba
          · exact hb.1 x hx
        · exact h

/-- Sorting puts a list in order. -/
theorem pairwise_ascending {lt : α → α → Bool}
    (trans : ∀ a b c, lt a b = true → lt b c = true → lt a c = true) (l : List α) :
    (ascending lt l).Pairwise fun x y => lt x y = true := by
  induction l with
  | nil => exact List.Pairwise.nil
  | cons a l ih => exact pairwise_insertAscending trans a ih

theorem below_apart (a b : Nat) (hab : below a b = false) (hba : below b a = false) : a = b := by
  simp only [below, decide_eq_false_iff_not] at hab hba
  omega

end RegisterColoring
