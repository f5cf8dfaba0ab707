/-!
# Disjoint Sets

A partition of the keys that have been united so far, kept as a forest. Every
member has a parent, and a member that is its own parent is the root of its tree:
it represents the set of all members below it. Uniting two sets hangs one root
below the other. A key that was never united with another is a member of no set.

Finding a representative changes the forest. The climb from a key to its root
hangs each key that it passes below its grandparent, so that the next climb is
shorter. Nothing keeps the trees flat otherwise; a climb ends because there is no
way around in a circle, and that has to survive both kinds of change. `Partition`
therefore holds the parents together with the fact that every member is below a
root. By that fact a climb passes no key twice, so it takes fewer turns than there
are members.

## Main definitions

* `Parents`: Members with their parents.
* `Parents.climb`: The way from a key to its root, shortened on the way.
* `Parents.Rises`, `Parents.Grounded`: A number of steps leads to a root; it does from
  every member.
* `Partition`: Parents without a circle.
* `Partition.root?`, `Partition.union`: Representatives, and uniting the sets of two keys.
* `Partition.perform`: The answer to a request and the sets after it.

## Theorems

* `Parents.climb_of_rises`: A climb with enough turns finds the root and flattens the forest.
* `Parents.Flattens.rootOf_iff`: Flattening keeps all roots.
* `Parents.Rises.hang_root`: The roots after one root is hung below another.
* `Partition.root?_union`: The representatives after a union.
-/

namespace RegisterColoring

/-- The members of a forest with their parents. -/
abbrev Parents (α : Type) := List (α × α)

namespace Parents

variable {α : Type} [DecidableEq α]

/-- Make `b` the parent of `a`. -/
def hang (t : Parents α) (a b : α) : Parents α :=
  if (t.lookup a).isSome then t.map fun (x, parent) => (x, if x = a then b else parent)
  else (a, b) :: t

/-- Make `a` a root unless it is a member already. -/
def join (t : Parents α) (a : α) : Parents α :=
  if (t.lookup a).isSome then t else t.hang a a

/-- Climb from `a` to its root in at most the given number of turns. A key that is
    passed is hung below its grandparent. The result is the root and what has
    become of the forest. -/
def climb : (turns : Nat) → Parents α → α → Option (α × Parents α)
  | 0, _, _ => none
  | turns + 1, t, a =>
      match t.lookup a with
      | none => none
      | some b =>
          if b = a then some (a, t)
          else
            match t.lookup b with
            | none => none
            | some c => climb turns (t.hang a c) b

/-- The root of `a` and the forest after the climb to it. A key that is no member
    has no root. -/
def seek (t : Parents α) (a : α) : Option (α × Parents α) :=
  climb t.length t a

/-- Make both keys members and hang the root of the first below the root of the second. -/
def unite (t : Parents α) (a b : α) : Parents α :=
  let joined := (t.join a).join b
  match joined.seek a with
  | none => joined
  | some (r, once) =>
      match once.seek b with
      | none => once
      | some (s, twice) => twice.hang r s

/-- From `a`, a number of steps from child to parent leads to a root. -/
inductive Rises (t : Parents α) : Nat → α → α → Prop where
  | root {r : α} (h : t.lookup r = some r) : Rises t 0 r r
  | up {n : Nat} {a b r : α} (h : t.lookup a = some b) (hne : b ≠ a) (hb : Rises t n b r) :
      Rises t (n + 1) a r

/-- The root of the tree that `a` is in. -/
def RootOf (t : Parents α) (a r : α) : Prop :=
  ∃ n, t.Rises n a r

/-- Every member is below a root. -/
def Grounded (t : Parents α) : Prop :=
  ∀ a, (t.lookup a).isSome = true → ∃ r, t.RootOf a r

theorem lookup_hang (t : Parents α) (a b x : α) :
    (t.hang a b).lookup x = if x = a then some b else t.lookup x := by
  -- Changing the parent of a member changes what is found for it and nothing else.
  have hmap : ∀ l : Parents α,
      (l.map fun (y, parent) => (y, if y = a then b else parent)).lookup x =
        if x = a then (l.lookup x).map fun _ => b else l.lookup x := by
    intro l
    induction l with
    | nil => simp
    | cons entry l ih =>
        obtain ⟨y, parent⟩ := entry
        by_cases hxy : x = y
        · subst hxy
          by_cases hxa : x = a
          · simp [hxa]
          · simp [hxa]
        · have hne : (x == y) = false := by simpa using hxy
          simp only [List.map_cons, List.lookup_cons, hne]
          exact ih
  unfold hang
  split
  · rename_i hmem
    rw [hmap]
    split
    · rename_i hxa
      obtain ⟨c, hc⟩ := Option.isSome_iff_exists.mp hmem
      rw [hxa, hc, Option.map_some]
    · rfl
  · by_cases hxa : x = a
    · simp [hxa]
    · have hne : (x == a) = false := by simpa using hxa
      rw [List.lookup_cons, hne, if_neg hxa]

namespace Rises

variable {t : Parents α} {n m : Nat} {a b c r s : α}

/-- There is one way up from a key. -/
theorem unique (h : t.Rises n a r) (h' : t.Rises m a s) : n = m ∧ r = s := by
  induction h generalizing m with
  | root hr =>
      cases h' with
      | root _ => exact ⟨rfl, rfl⟩
      | up ha hne _ =>
          rw [hr, Option.some.injEq] at ha
          exact absurd ha.symm hne
  | up ha hne _ ih =>
      cases h' with
      | root hr =>
          rw [hr, Option.some.injEq] at ha
          exact absurd ha.symm hne
      | up ha' _ hb' =>
          rw [ha, Option.some.injEq] at ha'
          subst ha'
          obtain ⟨hn, hr⟩ := ih hb'
          exact ⟨by rw [hn], hr⟩

theorem lookup_root (h : t.Rises n a r) : t.lookup r = some r := by
  induction h with
  | root hr => exact hr
  | up _ _ _ ih => exact ih

theorem isSome_lookup (h : t.Rises n a r) : (t.lookup a).isSome = true := by
  cases h with
  | root hr => rw [hr]; rfl
  | up ha _ _ => rw [ha]; rfl

/-- The keys on the way up, all different because each is nearer to the root. -/
theorem exists_way (h : t.Rises n a r) :
    ∃ way : List α, way.length = n + 1 ∧ way.Nodup ∧
      ∀ x ∈ way, ∃ k ≤ n, t.Rises k x r := by
  induction h with
  | @root r hr => exact ⟨[r], rfl, by simp, by simpa using .root hr⟩
  | @up n a b r ha hne hb ih =>
      obtain ⟨way, hlength, hnodup, hway⟩ := ih
      refine ⟨a :: way, by rw [List.length_cons, hlength], List.nodup_cons.mpr ⟨?_, hnodup⟩, ?_⟩
      · intro hmem
        obtain ⟨k, hk, hrises⟩ := hway a hmem
        have := (hrises.unique (.up ha hne hb)).1
        omega
      · intro x hx
        rcases List.mem_cons.mp hx with rfl | hx
        · exact ⟨n + 1, Nat.le_refl _, .up ha hne hb⟩
        · obtain ⟨k, hk, hrises⟩ := hway x hx
          exact ⟨k, by omega, hrises⟩

/-- The way up is shorter than the forest has members. -/
theorem lt_length (h : t.Rises n a r) : n < t.length := by
  obtain ⟨way, hlength, hnodup, hway⟩ := h.exists_way
  have hsub : way ⊆ t.map Prod.fst := by
    intro x hx
    obtain ⟨k, _, hrises⟩ := hway x hx
    obtain ⟨entry, hentry, heq⟩ := List.lookup_isSome_iff.mp hrises.isSome_lookup
    exact List.mem_map.mpr ⟨entry, hentry, (by simpa using heq : x = entry.1).symm⟩
  have := List.Nodup.length_le_of_subset hnodup hsub
  rw [List.length_map] at this
  omega

/-- Hanging a key below its grandparent shortens some ways and keeps all roots. -/
theorem hang_grandparent (h : t.Rises n a r) {x y z : α} (hx : t.lookup x = some y)
    (hne : y ≠ x) (hy : t.lookup y = some z) : ∃ k ≤ n, (t.hang x z).Rises k a r := by
  induction h with
  | @root r hr =>
      have hrx : r ≠ x := by
        intro heq
        rw [heq, hx, Option.some.injEq] at hr
        exact hne hr
      exact ⟨0, Nat.le_refl _, .root (by rw [lookup_hang, if_neg hrx, hr])⟩
  | @up n a b r ha hab hb ih =>
      obtain ⟨k, hk, hrises⟩ := ih
      by_cases hax : a = x
      · -- The key goes to where its parent went, one step higher than before.
        subst hax
        rw [hx, Option.some.injEq] at ha
        subst ha
        have hparent : (t.hang a z).lookup y = some z := by rw [lookup_hang, if_neg hne, hy]
        have hself : (t.hang a z).lookup a = some z := by rw [lookup_hang, if_pos rfl]
        cases hrises with
        | root hroot =>
            rw [hparent, Option.some.injEq] at hroot
            subst hroot
            exact ⟨1, by omega, .up hself hne (.root hparent)⟩
        | @up k' _ z' _ hz hzy hrest =>
            rw [hparent, Option.some.injEq] at hz
            subst hz
            -- In a circle of two the way from the key would be longer than itself.
            have hza : z ≠ a := by
              rintro rfl
              cases hb with
              | root hroot =>
                  rw [hy, Option.some.injEq] at hroot
                  exact hne hroot.symm
              | up hz _ hback =>
                  rw [hy, Option.some.injEq] at hz
                  subst hz
                  have := (hback.unique (.up hx hne (.up hy hzy hback))).1
                  omega
            exact ⟨k' + 1, by omega, .up hself hza hrest⟩
      · exact ⟨k + 1, by omega, .up (by rw [lookup_hang, if_neg hax, ha]) hab hrises⟩

/-- Hanging one root below another moves all that was below it. -/
theorem hang_root (h : t.Rises n a r) {x y : α} (hx : t.lookup x = some x)
    (hy : t.lookup y = some y) : (t.hang x y).RootOf a (if r = x then y else r) := by
  induction h with
  | @root r hr =>
      by_cases hrx : r = x
      · subst hrx
        rw [if_pos rfl]
        have hself : (t.hang r y).lookup r = some y := by rw [lookup_hang, if_pos rfl]
        by_cases hyr : y = r
        · subst hyr
          exact ⟨0, .root hself⟩
        · exact ⟨1, .up hself hyr (.root (by rw [lookup_hang, if_neg hyr, hy]))⟩
      · rw [if_neg hrx]
        exact ⟨0, .root (by rw [lookup_hang, if_neg hrx, hr])⟩
  | @up n a b r ha hab _ ih =>
      obtain ⟨k, hrises⟩ := ih
      have hax : a ≠ x := by
        rintro rfl
        rw [hx, Option.some.injEq] at ha
        exact hab ha.symm
      exact ⟨k + 1, .up (by rw [lookup_hang, if_neg hax, ha]) hab hrises⟩

/-- A new root changes no way up. -/
theorem join (h : t.Rises n a r) (x : α) : (t.join x).Rises n a r := by
  unfold Parents.join
  split
  · exact h
  · rename_i hnew
    have hstill : ∀ y z, t.lookup y = some z → (t.hang x x).lookup y = some z := by
      intro y z hy
      have hne : y ≠ x := by
        rintro rfl
        exact hnew (by rw [hy]; rfl)
      rw [lookup_hang, if_neg hne, hy]
    induction h with
    | root hr => exact .root (hstill _ _ hr)
    | up ha hne _ ih => exact .up (hstill _ _ ha) hne ih

end Rises

/-- The second forest has the members of the first, each no further below the same root. -/
structure Flattens (t t' : Parents α) : Prop where
  isSome_lookup : ∀ a, (t'.lookup a).isSome = (t.lookup a).isSome
  rises : ∀ n a r, t.Rises n a r → ∃ k ≤ n, t'.Rises k a r

namespace Flattens

variable {t t' t'' : Parents α}

theorem refl (t : Parents α) : t.Flattens t :=
  ⟨fun _ => rfl, fun n _ _ h => ⟨n, Nat.le_refl n, h⟩⟩

theorem trans (h : t.Flattens t') (h' : t'.Flattens t'') : t.Flattens t'' where
  isSome_lookup a := (h'.isSome_lookup a).trans (h.isSome_lookup a)
  rises n a r hr := by
    obtain ⟨k, hk, hr'⟩ := h.rises n a r hr
    obtain ⟨j, hj, hr''⟩ := h'.rises k a r hr'
    exact ⟨j, Nat.le_trans hj hk, hr''⟩

theorem hang {a b c : α} (ha : t.lookup a = some b) (hne : b ≠ a) (hb : t.lookup b = some c) :
    t.Flattens (t.hang a c) where
  isSome_lookup x := by
    rw [lookup_hang]
    split
    · rename_i hx
      rw [hx, ha]
      rfl
    · rfl
  rises _ _ _ h := h.hang_grandparent ha hne hb

theorem rootOf (h : t.Flattens t') {a r : α} (hr : t.RootOf a r) : t'.RootOf a r := by
  obtain ⟨n, hn⟩ := hr
  obtain ⟨k, _, hk⟩ := h.rises n a r hn
  exact ⟨k, hk⟩

theorem grounded (h : t.Flattens t') (ht : t.Grounded) : t'.Grounded := by
  intro a ha
  rw [h.isSome_lookup] at ha
  obtain ⟨r, hr⟩ := ht a ha
  exact ⟨r, h.rootOf hr⟩

end Flattens

theorem RootOf.unique {t : Parents α} {a r s : α} (h : t.RootOf a r) (h' : t.RootOf a s) :
    r = s := by
  obtain ⟨n, hn⟩ := h
  obtain ⟨m, hm⟩ := h'
  exact (hn.unique hm).2

/-- Flattening a forest adds no roots either. -/
theorem Flattens.rootOf_iff {t t' : Parents α} (h : t.Flattens t') (ht : t.Grounded) {a r : α} :
    t'.RootOf a r ↔ t.RootOf a r := by
  refine ⟨fun hr => ?_, h.rootOf⟩
  obtain ⟨n, hn⟩ := hr
  have hmem := hn.isSome_lookup
  rw [h.isSome_lookup] at hmem
  obtain ⟨s, hs⟩ := ht a hmem
  rw [RootOf.unique ⟨n, hn⟩ (h.rootOf hs)]
  exact hs

/-- A climb with more turns than there are steps to the root finds the root. -/
theorem climb_of_rises {turns n : Nat} {t : Parents α} {a r : α} (h : t.Rises n a r)
    (hn : n < turns) : ∃ t', climb turns t a = some (r, t') ∧ t.Flattens t' := by
  induction turns generalizing t n a with
  | zero => exact absurd hn (Nat.not_lt_zero n)
  | succ turns ih =>
      cases h with
      | root hr => exact ⟨t, by simp only [climb, hr, if_pos], .refl t⟩
      | @up n _ b _ ha hne hb =>
          obtain ⟨c, hc⟩ := Option.isSome_iff_exists.mp hb.isSome_lookup
          have hflat : t.Flattens (t.hang a c) := .hang ha hne hc
          -- The climb goes on from the parent, which is not further from the root than before.
          obtain ⟨k, hk, hrises⟩ := hflat.rises n b r hb
          obtain ⟨t', hclimb, hrest⟩ := ih hrises (by omega)
          exact ⟨t', by simp only [climb, ha, if_neg hne, hc, hclimb], hflat.trans hrest⟩

theorem climb_of_not_mem {t : Parents α} {a : α} (h : t.lookup a = none) (turns : Nat) :
    climb turns t a = none := by
  cases turns with
  | zero => rfl
  | succ turns => simp only [climb, h]

@[simp] theorem seek_nil (a : α) : seek [] a = none :=
  rfl

theorem seek_of_rootOf {t : Parents α} {a r : α} (h : t.RootOf a r) :
    ∃ t', t.seek a = some (r, t') ∧ t.Flattens t' := by
  obtain ⟨n, hn⟩ := h
  exact climb_of_rises hn hn.lt_length

/-- What a climb finds in a forest without a circle. -/
theorem Grounded.of_seek {t t' : Parents α} (ht : t.Grounded) {a r : α}
    (h : t.seek a = some (r, t')) : t.RootOf a r ∧ t.Flattens t' := by
  cases hmem : t.lookup a with
  | none =>
      rw [seek, climb_of_not_mem hmem] at h
      exact absurd h (by simp)
  | some b =>
      obtain ⟨s, hs⟩ := ht a (by rw [hmem]; rfl)
      obtain ⟨t'', hseek, hflat⟩ := seek_of_rootOf hs
      rw [h, Option.some.injEq, Prod.mk.injEq] at hseek
      obtain ⟨rfl, rfl⟩ := hseek
      exact ⟨hs, hflat⟩

theorem lookup_join (t : Parents α) (a x : α) :
    ((t.join a).lookup x).isSome = (decide (x = a) || (t.lookup x).isSome) := by
  unfold join
  split
  · rename_i hmem
    by_cases hx : x = a
    · rw [hx, hmem, Bool.or_true]
    · simp [hx]
  · rw [lookup_hang]
    by_cases hx : x = a
    · simp [hx]
    · simp [hx]

theorem RootOf.join {t : Parents α} {a r : α} (h : t.RootOf a r) (x : α) :
    (t.join x).RootOf a r := by
  obtain ⟨n, hn⟩ := h
  exact ⟨n, hn.join x⟩

theorem rootOf_join_new {t : Parents α} {a : α} (h : t.lookup a = none) :
    (t.join a).RootOf a a := by
  refine ⟨0, .root ?_⟩
  unfold Parents.join
  rw [h, if_neg (by simp), lookup_hang, if_pos rfl]

theorem Grounded.join {t : Parents α} (ht : t.Grounded) (a : α) : (t.join a).Grounded := by
  intro x hx
  cases hmem : t.lookup x with
  | some b =>
      obtain ⟨r, hr⟩ := ht x (by rw [hmem]; rfl)
      exact ⟨r, hr.join a⟩
  | none =>
      rw [lookup_join, hmem, Option.isSome_none, Bool.or_false, decide_eq_true_eq] at hx
      subst hx
      exact ⟨x, rootOf_join_new hmem⟩

/-- A union finds the roots of both keys and moves what is below the first root. -/
theorem unite_spec {t : Parents α} {a b r s : α}
    (hr : ((t.join a).join b).RootOf a r) (hs : ((t.join a).join b).RootOf b s) :
    (∀ x, ((t.unite a b).lookup x).isSome = (((t.join a).join b).lookup x).isSome) ∧
      ∀ x q, ((t.join a).join b).RootOf x q →
        (t.unite a b).RootOf x (if q = r then s else q) := by
  obtain ⟨once, honce, hflat⟩ := seek_of_rootOf hr
  obtain ⟨twice, htwice, hflat'⟩ := seek_of_rootOf (hflat.rootOf hs)
  have hall := hflat.trans hflat'
  have hunite : t.unite a b = twice.hang r s := by
    simp only [unite, honce, htwice]
  -- Both roots still are roots after both climbs.
  have hroot : ∀ {x q : α}, ((t.join a).join b).RootOf x q → twice.lookup q = some q := by
    intro x q hq
    obtain ⟨n, hn⟩ := hall.rootOf hq
    exact hn.lookup_root
  rw [hunite]
  constructor
  · intro x
    rw [lookup_hang, ← hall.isSome_lookup x]
    split
    · rename_i hx
      rw [hx, hroot hr]
      rfl
    · rfl
  · intro x q hq
    obtain ⟨n, hn⟩ := hall.rootOf hq
    exact hn.hang_root (hroot hr) (hroot hs)

theorem Grounded.unite {t : Parents α} (ht : t.Grounded) (a b : α) : (t.unite a b).Grounded := by
  have hjoined := (ht.join a).join b
  have hmem : ∀ y, y = a ∨ y = b → (((t.join a).join b).lookup y).isSome = true := by
    intro y hy
    rw [lookup_join, lookup_join]
    rcases hy with rfl | rfl
    · simp
    · simp
  obtain ⟨r, hr⟩ := hjoined a (hmem a (Or.inl rfl))
  obtain ⟨s, hs⟩ := hjoined b (hmem b (Or.inr rfl))
  obtain ⟨hmembers, hmoved⟩ := unite_spec hr hs
  intro x hx
  rw [hmembers] at hx
  obtain ⟨q, hq⟩ := hjoined x hx
  exact ⟨_, hmoved x q hq⟩

end Parents

/-- Disjoint sets: a forest in which every member is below a root. -/
structure Partition (α : Type) [DecidableEq α] where
  parents : Parents α
  grounded : parents.Grounded

namespace Partition

variable {α : Type} [DecidableEq α]

def empty : Partition α :=
  ⟨[], fun _ h => absurd h (by simp)⟩

/-- The representative of the set of `a`, if `a` is a member. -/
def root? (p : Partition α) (a : α) : Option α :=
  (p.parents.seek a).map Prod.fst

/-- The sets as they are after the representative of `a` was looked for. -/
def afterRoot (p : Partition α) (a : α) : Partition α :=
  match h : p.parents.seek a with
  | none => p
  | some (_, shorter) => ⟨shorter, (p.grounded.of_seek h).2.grounded p.grounded⟩

def contains (p : Partition α) (a : α) : Bool :=
  (p.parents.lookup a).isSome

/-- Both keys are members, and of the same set. -/
def connected (p : Partition α) (a b : α) : Bool :=
  match p.root? a, (p.afterRoot a).root? b with
  | some r, some s => decide (r = s)
  | _, _ => false

/-- Unite the sets of two keys, which become members if they are not. The
    representative of the second key's set stands for the united set. -/
def union (p : Partition α) (a b : α) : Partition α :=
  ⟨p.parents.unite a b, p.grounded.unite a b⟩

/-- The representative of a key, which is itself if it is in no set. -/
def rootD (p : Partition α) (a : α) : α :=
  (p.root? a).getD a

/-- What can be asked of disjoint sets. -/
inductive Request (α : Type) where
  | union (a b : α)
  | connected (a b : α)
  | root (a : α)
  | contains (a : α)

/-- The answer to a request. -/
inductive Answer (α : Type) where
  | done
  | truth (holds : Bool)
  | representative (r : Option α)
deriving DecidableEq

/-- The answer to a request and the sets after it. -/
def perform (p : Partition α) : Request α → Answer α × Partition α
  | .union a b => (.done, p.union a b)
  | .connected a b => (.truth (p.connected a b), (p.afterRoot a).afterRoot b)
  | .root a => (.representative (p.root? a), p.afterRoot a)
  | .contains a => (.truth (p.contains a), p)

/-- The answers to requests made one after the other, and the sets after them all. -/
def performAll (p : Partition α) : List (Request α) → List (Answer α) × Partition α
  | [] => ([], p)
  | request :: rest =>
      let (answer, q) := p.perform request
      let (answers, last) := q.performAll rest
      (answer :: answers, last)

theorem root?_eq_some_iff (p : Partition α) {a r : α} :
    p.root? a = some r ↔ p.parents.RootOf a r := by
  rw [root?, Option.map_eq_some_iff]
  constructor
  · rintro ⟨⟨s, t⟩, hseek, rfl⟩
    exact (p.grounded.of_seek hseek).1
  · intro h
    obtain ⟨t, hseek, _⟩ := Parents.seek_of_rootOf h
    exact ⟨(r, t), hseek, rfl⟩

theorem isSome_root? (p : Partition α) (a : α) : (p.root? a).isSome = p.contains a := by
  rw [Bool.eq_iff_iff, Option.isSome_iff_exists, contains]
  constructor
  · rintro ⟨r, hr⟩
    obtain ⟨n, hn⟩ := p.root?_eq_some_iff.mp hr
    exact hn.isSome_lookup
  · intro h
    obtain ⟨r, hr⟩ := p.grounded a h
    exact ⟨r, p.root?_eq_some_iff.mpr hr⟩

theorem root?_eq_none_iff (p : Partition α) {a : α} :
    p.root? a = none ↔ p.parents.lookup a = none := by
  rw [← Option.not_isSome_iff_eq_none, isSome_root?, contains, Option.not_isSome_iff_eq_none]

theorem rootOf_join_rootD (p : Partition α) (a : α) :
    (p.parents.join a).RootOf a (p.rootD a) := by
  unfold rootD
  cases h : p.root? a with
  | none => exact Parents.rootOf_join_new (p.root?_eq_none_iff.mp h)
  | some r => exact (p.root?_eq_some_iff.mp h).join a

/-- Joining two keys to a forest leaves each below its old root, or makes it a root. -/
theorem rootOf_join_join_rootD (p : Partition α) (a b : α) :
    ((p.parents.join a).join b).RootOf b (p.rootD b) := by
  by_cases hba : b = a
  · subst hba
    exact (p.rootOf_join_rootD b).join b
  · unfold rootD
    cases h : p.root? b with
    | some s => exact ((p.root?_eq_some_iff.mp h).join a).join b
    | none =>
        refine Parents.rootOf_join_new (Option.not_isSome_iff_eq_none.mp ?_)
        rw [Parents.lookup_join, p.root?_eq_none_iff.mp h]
        simp [hba]

/-- After a union, the sets of both keys have the old representative of the
    second key, and every other set keeps its own. -/
theorem root?_union (p : Partition α) (a b x : α) :
    (p.union a b).root? x =
      if x = a ∨ x = b then some (p.rootD b)
      else (p.root? x).map fun rep => if rep = p.rootD a then p.rootD b else rep := by
  have ha := (p.rootOf_join_rootD a).join b
  have hb := p.rootOf_join_join_rootD a b
  obtain ⟨hmembers, hmoved⟩ := Parents.unite_spec ha hb
  by_cases hx : x = a ∨ x = b
  · rw [if_pos hx]
    refine (p.union a b).root?_eq_some_iff.mpr ?_
    rcases hx with rfl | rfl
    · have := hmoved x _ ha
      rwa [if_pos rfl] at this
    · have := hmoved x _ hb
      rwa [ite_self] at this
  · rw [if_neg hx]
    cases hroot : p.root? x with
    | some r =>
        rw [Option.map_some]
        refine (p.union a b).root?_eq_some_iff.mpr (hmoved x r ?_)
        exact ((p.root?_eq_some_iff.mp hroot).join a).join b
    | none =>
        rw [not_or] at hx
        have hnew : (((p.parents.join a).join b).lookup x).isSome = false := by
          rw [Parents.lookup_join, Parents.lookup_join, p.root?_eq_none_iff.mp hroot]
          simp [hx.1, hx.2]
        rw [Option.map_none, root?_eq_none_iff, ← Option.not_isSome_iff_eq_none]
        intro hmem
        exact absurd ((hmembers x).symm.trans hmem) (by rw [hnew]; simp)

end Partition

end RegisterColoring
