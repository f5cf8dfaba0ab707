import RegisterColoring.Proofs.TiedGroups

/-!
# Disjoint Sets Decide Connectivity

Whatever was asked before, disjoint sets answer for the pairs united so far: a key is
a member if a pair names it, two keys are in one set if a chain of pairs leads from one
to the other, and every set has one representative, which a union takes over from its
second key.

Questions change the forest too, because every climb flattens it. What they cannot change
is a root, and every answer is read off the roots. Two partitions with the same roots are
`Alike`: they give the same answers and stay alike under every request. So it does not
matter which questions were asked, and the sets after any history are known from its
unions alone.

A climb is given as many turns as there are members. It never needs the last of them: the
steps from a member to its root are fewer than the members, and more turns than that
change nothing.

## Main definitions

* `Partition.Alike`: The same representatives.
* `Partition.Records`: The members and sets of some pairs.
* `Partition.Decides`: All answers are those of some pairs.

## Theorems

* `Parents.climb_mono`: More turns keep the result of a climb.
* `Partition.alike_afterRoot`: A climb keeps all representatives.
* `Partition.Alike.perform`, `Partition.Alike.performAll`: One request, and a whole history.
* `Partition.Records.perform`, `Partition.records_performAll`: What each request records.
* `Partition.decides_performAll`: The answers after every history.
-/

namespace RegisterColoring

/-- A climb that has found a root ends with it, however many turns are left. -/
theorem Parents.climb_mono {α : Type} [DecidableEq α] {turns more : Nat} {t t' : Parents α}
    {a r : α} (h : climb turns t a = some (r, t')) (hle : turns ≤ more) :
    climb more t a = some (r, t') := by
  induction turns generalizing t a more with
  | zero => exact absurd h (by simp [climb])
  | succ turns ih =>
      cases more with
      | zero => omega
      | succ more =>
          unfold climb at h ⊢
          cases ha : t.lookup a with
          | none => rw [ha] at h; exact absurd h (by simp)
          | some b =>
              rw [ha] at h
              by_cases hba : b = a
              · simpa only [if_pos hba] using h
              · simp only [if_neg hba] at h ⊢
                cases hb : t.lookup b with
                | none => rw [hb] at h; exact absurd h (by simp)
                | some c =>
                    -- Both climbs go on from the parent, in the same forest.
                    rw [hb] at h
                    exact ih h (by omega)

namespace Partition

variable {α : Type} [DecidableEq α] {p q : Partition α} {pairs : List (α × α)}

/-- Every key has the same representative in both. -/
def Alike (p q : Partition α) : Prop :=
  ∀ a, p.root? a = q.root? a

/-- Looking for a representative changes none. -/
theorem alike_afterRoot (p : Partition α) (a : α) : (p.afterRoot a).Alike p := by
  intro x
  refine Option.ext fun r => ?_
  rw [root?_eq_some_iff, root?_eq_some_iff]
  unfold afterRoot
  split
  · exact Iff.rfl
  · rename_i hseek
    exact (p.grounded.of_seek hseek).2.rootOf_iff p.grounded

namespace Alike

theorem trans {q' : Partition α} (h : p.Alike q) (h' : q.Alike q') : p.Alike q' :=
  fun a => (h a).trans (h' a)

theorem symm (h : p.Alike q) : q.Alike p :=
  fun a => (h a).symm

theorem rootD (h : p.Alike q) (a : α) : p.rootD a = q.rootD a := by
  rw [Partition.rootD, Partition.rootD, h a]

theorem contains (h : p.Alike q) (a : α) : p.contains a = q.contains a := by
  rw [← isSome_root?, ← isSome_root?, h a]

theorem connected (h : p.Alike q) (a b : α) : p.connected a b = q.connected a b := by
  have hafter : (p.afterRoot a).root? b = (q.afterRoot a).root? b :=
    (alike_afterRoot p a b).trans ((h b).trans (alike_afterRoot q a b).symm)
  rw [Partition.connected, Partition.connected, h a, hafter]

theorem afterRoot (h : p.Alike q) (a b : α) : (p.afterRoot a).Alike (q.afterRoot b) :=
  (alike_afterRoot p a).trans (h.trans (alike_afterRoot q b).symm)

theorem union (h : p.Alike q) (a b : α) : (p.union a b).Alike (q.union a b) := by
  intro x
  rw [root?_union, root?_union, h x, h.rootD a, h.rootD b]

/-- Partitions that are alike give the same answer and are alike after it. -/
theorem perform (h : p.Alike q) (request : Request α) :
    (p.perform request).1 = (q.perform request).1 ∧
      (p.perform request).2.Alike (q.perform request).2 := by
  cases request with
  | union a b => exact ⟨rfl, h.union a b⟩
  | connected a b =>
      exact ⟨congrArg Answer.truth (h.connected a b), (h.afterRoot a a).afterRoot b b⟩
  | root a => exact ⟨congrArg Answer.representative (h a), h.afterRoot a a⟩
  | contains a => exact ⟨congrArg Answer.truth (h.contains a), h⟩

/-- They give the same answers to all that is asked from then on. -/
theorem performAll (h : p.Alike q) (history : List (Request α)) :
    (p.performAll history).1 = (q.performAll history).1 := by
  induction history generalizing p q with
  | nil => rfl
  | cons request history ih =>
      obtain ⟨hanswer, hafter⟩ := h.perform request
      have hrest := ih hafter
      simp only [Partition.performAll]
      rw [hanswer, hrest]

end Alike

/-- The pair that a request unites. -/
def Request.pair? : Request α → Option (α × α)
  | .union a b => some (a, b)
  | _ => none

/-- A question leaves the sets as they are. -/
theorem alike_perform (p : Partition α) {query : Request α} (h : query.pair? = none) :
    (p.perform query).2.Alike p := by
  cases query with
  | union a b => exact absurd h (by simp [Request.pair?])
  | connected a b => exact (alike_afterRoot _ b).trans (alike_afterRoot p a)
  | root a => exact alike_afterRoot p a
  | contains a => exact fun _ => rfl

theorem connected_eq_true (p : Partition α) {a b : α} :
    p.connected a b = true ↔ ∃ r, p.root? a = some r ∧ p.root? b = some r := by
  unfold connected
  rw [alike_afterRoot p a b]
  cases ha : p.root? a with
  | none => simp
  | some r =>
      cases hb : p.root? b with
      | none => simp
      | some s =>
          simp only [decide_eq_true_eq, Option.some.injEq, exists_eq_left']
          exact eq_comm

/-- Some pair names the key. -/
def Mentions (pairs : List (α × α)) (a : α) : Prop :=
  ∃ pair ∈ pairs, a = pair.1 ∨ a = pair.2

/-- The members are the keys of the pairs, and the sets are what the pairs connect. -/
structure Records (p : Partition α) (pairs : List (α × α)) : Prop where
  represents : p.Represents pairs
  contains_iff : ∀ a, p.contains a = true ↔ Mentions pairs a

namespace Records

theorem empty : Records (.empty : Partition α) [] where
  represents := .empty
  contains_iff a := by simp [Partition.contains, Partition.empty, Mentions]

/-- Only representatives count. -/
theorem of_alike (h : p.Records pairs) (hq : q.Alike p) : q.Records pairs where
  represents :=
    { idem := fun x r hx => by
        rw [hq] at hx ⊢
        exact h.represents.idem x r hx
      rootD_eq_iff := fun x y => by
        rw [hq.rootD, hq.rootD]
        exact h.represents.rootD_eq_iff x y }
  contains_iff a := by
    rw [hq.contains]
    exact h.contains_iff a

theorem union (h : p.Records pairs) (a b : α) : (p.union a b).Records (pairs ++ [(a, b)]) where
  represents := h.represents.union a b
  contains_iff x := by
    -- A key has a representative after the union if it is one of the two or had one before.
    have hmember : (p.union a b).contains x = true ↔ (x = a ∨ x = b) ∨ p.contains x = true := by
      rw [← isSome_root?, ← isSome_root?, root?_union]
      by_cases hx : x = a ∨ x = b
      · simp [hx]
      · simp [hx]
    rw [hmember, h.contains_iff]
    constructor
    · rintro (hx | ⟨pair, hpair, hx⟩)
      · exact ⟨(a, b), by simp, hx⟩
      · exact ⟨pair, List.mem_append_left _ hpair, hx⟩
    · rintro ⟨pair, hpair, hx⟩
      rcases List.mem_append.mp hpair with hpair | hpair
      · exact Or.inr ⟨pair, hpair, hx⟩
      · rw [List.mem_singleton.mp hpair] at hx
        exact Or.inl hx

/-- A request records its pair, if it unites one. -/
theorem perform (h : p.Records pairs) (request : Request α) :
    (p.perform request).2.Records (pairs ++ request.pair?.toList) := by
  cases hpair : request.pair? with
  | none =>
      rw [Option.toList_none, List.append_nil]
      exact h.of_alike (alike_perform p hpair)
  | some pair =>
      cases request with
      | union a b =>
          simp only [Request.pair?, Option.some.injEq] at hpair
          rw [← hpair]
          exact h.union a b
      | connected a b => exact absurd hpair (by simp [Request.pair?])
      | root a => exact absurd hpair (by simp [Request.pair?])
      | contains a => exact absurd hpair (by simp [Request.pair?])

theorem performAll (h : p.Records pairs) (history : List (Request α)) :
    (p.performAll history).2.Records (pairs ++ history.filterMap Request.pair?) := by
  induction history generalizing p pairs with
  | nil =>
      rw [List.filterMap_nil, List.append_nil]
      exact h
  | cons request history ih =>
      have hlater := ih (h.perform request)
      have hpairs : pairs ++ (request :: history).filterMap Request.pair? =
          pairs ++ request.pair?.toList ++ history.filterMap Request.pair? := by
        cases hpair : request.pair? with
        | none => simp [hpair]
        | some pair => simp [hpair]
      rw [hpairs]
      exact hlater

/-- A representative is a member of its set. -/
theorem of_root (h : p.Records pairs) {a r : α} (hr : p.root? a = some r) :
    Mentions pairs r ∧ Connects pairs a r := by
  have hself := h.represents.idem a r hr
  refine ⟨(h.contains_iff r).mp ?_, (h.represents.rootD_eq_iff a r).mp ?_⟩
  · rw [← isSome_root?, hself]
    rfl
  · rw [rootD_of_root hr, rootD_of_root hself]

/-- The members that pairs connect to a key have its representative. -/
theorem root_of_connects (h : p.Records pairs) {a b : α} (hb : Mentions pairs b)
    (hconn : Connects pairs b a) : p.root? b = some (p.rootD a) := by
  have hmember := (h.contains_iff b).mpr hb
  rw [← isSome_root?] at hmember
  obtain ⟨r, hr⟩ := Option.isSome_iff_exists.mp hmember
  rw [hr, ← rootD_of_root hr, (h.represents.rootD_eq_iff b a).mpr hconn]

end Records

/-- The sets after a history record its unions. -/
theorem records_performAll (history : List (Request α)) :
    (Partition.empty.performAll history).2.Records (history.filterMap Request.pair?) := by
  have h := Records.performAll (Records.empty (α := α)) history
  rwa [List.nil_append] at h

/-- All answers are those of the pairs united so far. -/
structure Decides (p : Partition α) (pairs : List (α × α)) : Prop where
  /-- A climb from a member ends within as many turns as there are members. -/
  climbs : ∀ a, Mentions pairs a → ∃ r t, ∀ turns, p.parents.length ≤ turns →
    p.parents.climb turns a = some (r, t)
  contains_iff : ∀ a, p.contains a = true ↔ Mentions pairs a
  connected_iff : ∀ a b, p.connected a b = true ↔
    Mentions pairs a ∧ Mentions pairs b ∧ Connects pairs a b
  root_eq_none_iff : ∀ a, p.root? a = none ↔ ¬ Mentions pairs a
  /-- The representative of a set is one of its members, and the same for all of them. -/
  root_eq_some : ∀ a r, p.root? a = some r → Mentions pairs r ∧ Connects pairs a r ∧
    ∀ b, Mentions pairs b → Connects pairs a b → p.root? b = some r
  /-- After a union, the old representative of the second key stands for the united set. -/
  root_union : ∀ a b c, Mentions (pairs ++ [(a, b)]) c → Connects (pairs ++ [(a, b)]) c b →
    (p.perform (.union a b)).2.root? c = some ((p.root? b).getD b)
  /-- Questions change no later answer. -/
  questions : ∀ query : Request α, query.pair? = none → ∀ later,
    ((p.perform query).2.performAll later).1 = (p.performAll later).1

/-- After every history of requests, the sets answer for the pairs united in it. -/
theorem decides_performAll (history : List (Request α)) :
    (Partition.empty.performAll history).2.Decides (history.filterMap Request.pair?) := by
  have h := records_performAll history
  generalize (Partition.empty.performAll history).2 = p at h
  generalize history.filterMap Request.pair? = pairs at h
  constructor
  case climbs =>
    intro a ha
    obtain ⟨r, n, hn⟩ := p.grounded a ((h.contains_iff a).mpr ha)
    obtain ⟨t, hclimb, _⟩ := Parents.climb_of_rises hn hn.lt_length
    exact ⟨r, t, fun turns hturns => Parents.climb_mono hclimb hturns⟩
  case contains_iff => exact h.contains_iff
  case connected_iff =>
    intro a b
    rw [connected_eq_true]
    constructor
    · rintro ⟨r, ha, hb⟩
      have hmember : ∀ x, p.root? x = some r → Mentions pairs x := fun x hx =>
        (h.contains_iff x).mp (by rw [← isSome_root?, hx]; rfl)
      refine ⟨hmember a ha, hmember b hb, (h.represents.rootD_eq_iff a b).mp ?_⟩
      rw [rootD_of_root ha, rootD_of_root hb]
    · rintro ⟨ha, hb, hconn⟩
      exact ⟨_, h.root_of_connects ha hconn, h.root_of_connects hb (.refl b)⟩
  case root_eq_none_iff =>
    intro a
    rw [← h.contains_iff, ← isSome_root?, Option.not_isSome_iff_eq_none]
  case root_eq_some =>
    intro a r hr
    obtain ⟨hmember, hconn⟩ := h.of_root hr
    refine ⟨hmember, hconn, fun b hb hab => ?_⟩
    rw [h.root_of_connects hb (.symm _ _ hab), rootD_of_root hr]
  case root_union =>
    intro a b c hc hconn
    have hlater := (h.union a b).root_of_connects hc hconn
    -- The second key keeps its representative, so that is the one of the united set.
    rwa [rootD_union h.represents.idem, ite_self] at hlater
  case questions =>
    intro query hquery later
    exact (alike_perform p hquery).performAll later

example : (Partition.empty.performAll [.root 1, .connected 1 1, .union 1 2, .union 3 4,
    .connected 1 2, .connected 2 3, .union 2 4, .connected 1 3, .root 1, .root 4,
    .contains 5]).1 =
    [.representative none, .truth false, .done, .done, .truth true, .truth false, .done,
      .truth true, .representative (some 4), .representative (some 4), .truth false] := by
  decide

end Partition

end RegisterColoring
