import Mathlib.Data.List.Nodup
import RegisterColoring.Proofs.Walk
import RegisterColoring.WellFormed

/-!
# Ids Along a Path

The check keeps one set of ids for all paths. A block adds its ids when the path
goes on to it and takes them out when the path goes back, so the set is right
only if nothing else has put the same ids there. That no id is defined in two
blocks is what makes it right: at every block of the walk, the set holds the ids
of the blocks on the path, no more and no less.

The walk with its set is then the same as a look at each simple path on its own,
in the order of the walk. `PathWalk.visit_eq` says so, by induction on the room
that is left for the path.

## Main definitions

* `PathWalk.Follows`: The walk has come along a path.
* `Arrival.undefined?`: What an arrival misses on its path.
* `simpleArrivals`: The arrivals at blocks that are not on the path yet.

## Theorems

* `PathWalk.Follows.enter`, `PathWalk.Follows.leave`: The set on the way there and back.
* `PathWalk.visit_eq`: The walk looks at the simple paths.
* `PathWalk.foldlM_meet_eq`: The outcome of looking at several paths.
-/

namespace RegisterColoring

/-- The arrivals at blocks that are not on their path. -/
def simpleArrivals (succ : Nat → List Nat) (room : Nat) (path : List Nat) (b : Nat) :
    List Arrival :=
  (arrivalsFrom succ room path b).filter fun a => !a.path.contains a.block

section SimpleArrivals

variable {succ : Nat → List Nat} {room : Nat} {path : List Nat} {b : Nat}

/-- Where the path meets itself there is no simple arrival. -/
theorem simpleArrivals_of_mem (hb : b ∈ path) : simpleArrivals succ room path b = [] := by
  cases room <;> simp [simpleArrivals, arrivalsFrom, hb]

theorem simpleArrivals_succ (hb : b ∉ path) : simpleArrivals succ (room + 1) path b =
    ⟨path, b⟩ :: (succ b).flatMap (simpleArrivals succ room (b :: path)) := by
  unfold simpleArrivals
  rw [arrivalsFrom, if_neg (by simpa using hb), List.filter_cons_of_pos (by simpa using hb),
    List.filter_flatMap]

end SimpleArrivals

/-- The first id that the block of an arrival needs and its path does not define. -/
def Arrival.undefined? (ids needs : Nat → List Nat) (a : Arrival) : Option Malformed :=
  ((needs a.block).find? fun r => !(a.path.flatMap ids).contains r).map fun r =>
    .undefinedUse r a.block

namespace PathWalk

variable {succ ids needs : Nat → List Nat} {w v : PathWalk} {path : List Nat} {b : Nat}

/-- The walk has come along `path`, and its ids are those that the path defines. -/
structure Follows (w : PathWalk) (ids : Nat → List Nat) (path : List Nat) : Prop where
  onPath : w.onPath = path
  defs : w.defs = path.flatMap ids

theorem follows_start (ids : Nat → List Nat) : start.Follows ids [] :=
  ⟨rfl, rfl⟩

theorem Follows.enter (h : w.Follows ids path) (b : Nat) :
    (w.enter b (ids b)).Follows ids (b :: path) where
  onPath := congrArg (b :: ·) h.onPath
  defs := congrArg (ids b ++ ·) h.defs

/-- Going back restores the ids if no other block of the path defines those of the block. -/
theorem Follows.leave (h : w.Follows ids (b :: path)) (hb : b ∉ path)
    (hapart : ∀ c ∈ path, (ids b).Disjoint (ids c)) : (w.leave b (ids b)).Follows ids path where
  onPath := by
    rw [PathWalk.leave, h.onPath, List.filter_cons_of_neg (by simp), List.filter_eq_self]
    rintro c hc
    have hne : c ≠ b := fun heq => hb (heq ▸ hc)
    simpa using hne
  defs := by
    have hgone : (ids b).filter (fun r => !(ids b).contains r) = [] := by
      rw [List.filter_eq_nil_iff]
      intro r hr
      simpa using hr
    have hkept : (path.flatMap ids).filter (fun r => !(ids b).contains r) = path.flatMap ids := by
      rw [List.filter_eq_self]
      intro r hr
      rcases List.mem_flatMap.mp hr with ⟨c, hc, hr⟩
      have hnot : r ∉ ids b := fun hmem => hapart c hc hmem hr
      simpa using hnot
    rw [PathWalk.leave, h.defs, List.flatMap_cons, List.filter_append, hgone, hkept,
      List.nil_append]

/-- Look at one arrival on its own. -/
def meet (ids needs : Nat → List Nat) (w : PathWalk) (a : Arrival) : Except Malformed PathWalk :=
  match a.undefined? ids needs with
  | some cause => .error cause
  | none => .ok { w with visited := w.visited.insert a.block }

/-- Looking at arrivals leaves the path and its ids as they are. -/
theorem map_foldlM_meet (ids needs : Nat → List Nat) (arrivals : List Arrival) (w : PathWalk)
    (onPath defs : List Nat) :
    (arrivals.foldlM (meet ids needs) w).map (fun v => { v with onPath, defs }) =
      arrivals.foldlM (meet ids needs) { w with onPath, defs } := by
  induction arrivals generalizing w with
  | nil => rfl
  | cons a arrivals ih =>
      rw [List.foldlM_cons, List.foldlM_cons]
      cases hmeet : a.undefined? ids needs with
      | some cause => simp only [meet, hmeet]; rfl
      | none =>
          simp only [meet, hmeet]
          exact ih _

theorem Follows.of_foldlM_meet {arrivals : List Arrival} (h : w.Follows ids path)
    (hv : arrivals.foldlM (meet ids needs) w = .ok v) : v.Follows ids path := by
  have hsame := map_foldlM_meet ids needs arrivals w w.onPath w.defs
  rw [hv] at hsame
  have hframe : { v with onPath := w.onPath, defs := w.defs } = v := Except.ok.inj hsame
  rw [← hframe]
  exact ⟨h.onPath, h.defs⟩

/-- The loop over the successors of a block, if each visit is a look at simple paths. -/
theorem foldlM_visit_eq {room : Nat} {nexts : List Nat} (h : w.Follows ids path)
    (hvisit : ∀ w : PathWalk, w.Follows ids path → ∀ next ∈ nexts, next ∉ path →
      visit succ ids needs room w next =
        (simpleArrivals succ room path next).foldlM (meet ids needs) w) :
    nexts.foldlM (fun w next =>
        if w.onPath.contains next then .ok w else visit succ ids needs room w next) w =
      (nexts.flatMap (simpleArrivals succ room path)).foldlM (meet ids needs) w := by
  induction nexts generalizing w with
  | nil => rfl
  | cons next nexts ih =>
      -- A block on the path is passed over and has no simple arrival.
      have hstep : (if w.onPath.contains next then .ok w
          else visit succ ids needs room w next) =
            (simpleArrivals succ room path next).foldlM (meet ids needs) w := by
        by_cases hnext : next ∈ path
        · rw [h.onPath, if_pos (by simpa using hnext), simpleArrivals_of_mem hnext]
          rfl
        · rw [h.onPath, if_neg (by simpa using hnext)]
          exact hvisit w h next List.mem_cons_self hnext
      rw [List.foldlM_cons, List.flatMap_cons, List.foldlM_append, hstep]
      cases hv : (simpleArrivals succ room path next).foldlM (meet ids needs) w with
      | error cause => rfl
      | ok v =>
          exact ih (h.of_foldlM_meet hv) fun w hw next hmem =>
            hvisit w hw next (List.mem_cons_of_mem _ hmem)

/-- If no id is defined in two blocks, the walk from a block looks at the simple paths through
    it, each with the ids that it defines. -/
theorem visit_eq {n room : Nat} (hapart : ∀ b c, b ≠ c → (ids b).Disjoint (ids c))
    (hsucc : ∀ b c, c ∈ succ b → c < n) (h : w.Follows ids path) (hsimple : (b :: path).Nodup)
    (hlt : ∀ c ∈ b :: path, c < n) (hroom : n ≤ room + path.length) :
    visit succ ids needs room w b =
      (simpleArrivals succ room path b).foldlM (meet ids needs) w := by
  induction room generalizing w path b with
  | zero =>
      -- A simple path has no more blocks than there are.
      have hsub : b :: path ⊆ List.range n := fun c hc => List.mem_range.mpr (hlt c hc)
      have hlen := List.Nodup.length_le_of_subset hsimple hsub
      rw [List.length_range, List.length_cons] at hlen
      omega
  | succ room ih =>
      have hb := List.nodup_cons.mp hsimple
      rw [visit, simpleArrivals_succ hb.1, List.foldlM_cons, h.defs]
      cases hfind : (needs b).find? fun r => !(path.flatMap ids).contains r with
      | some r =>
          simp only [meet, Arrival.undefined?, hfind, Option.map_some]
          rfl
      | none =>
          simp only [meet, Arrival.undefined?, hfind, Option.map_none]
          have hloop := foldlM_visit_eq (h.enter b) fun v hv next hnext hnew =>
            ih hv (List.nodup_cons.mpr ⟨hnew, hsimple⟩)
              (List.forall_mem_cons.mpr ⟨hsucc b next hnext, hlt⟩)
              (by rw [List.length_cons]; omega)
          rw [hloop]
          -- What the block has added is taken out again at the end.
          refine Eq.trans ?_ (map_foldlM_meet ids needs _ (w.enter b (ids b)) w.onPath w.defs)
          cases hv : ((succ b).flatMap (simpleArrivals succ room (b :: path))).foldlM
              (meet ids needs) (w.enter b (ids b)) with
          | error cause => rfl
          | ok v =>
              have hback := ((h.enter b).of_foldlM_meet hv).leave hb.1 fun c hc =>
                hapart b c fun heq => hb.1 (heq ▸ hc)
              have hleave : v.leave b (ids b) = { v with onPath := w.onPath, defs := w.defs } := by
                rw [h.defs, ← hback.defs, h.onPath, ← hback.onPath]
                rfl
              exact congrArg Except.ok hleave

/-- The first arrival that misses an id decides. -/
theorem foldlM_meet_eq (ids needs : Nat → List Nat) (arrivals : List Arrival) (w : PathWalk) :
    arrivals.foldlM (meet ids needs) w =
      match arrivals.findSome? (Arrival.undefined? ids needs) with
      | some cause => .error cause
      | none => .ok { w with
          visited := arrivals.foldl (fun visited a => visited.insert a.block) w.visited } := by
  induction arrivals generalizing w with
  | nil => rfl
  | cons a arrivals ih =>
      rw [List.foldlM_cons, List.findSome?_cons]
      cases hmeet : a.undefined? ids needs with
      | some cause =>
          simp only [meet, hmeet]
          rfl
      | none =>
          simp only [meet, hmeet]
          exact ih _

theorem mem_foldl_insert {arrivals : List Arrival} {visited : List Nat} {c : Nat} :
    c ∈ arrivals.foldl (fun visited a => visited.insert a.block) visited ↔
      c ∈ visited ∨ ∃ a ∈ arrivals, a.block = c := by
  induction arrivals generalizing visited with
  | nil => simp
  | cons a arrivals ih =>
      rw [List.foldl_cons, ih, List.mem_insert_iff, List.exists_mem_cons_iff, eq_comm, or_assoc,
        or_left_comm]

end PathWalk

end RegisterColoring
