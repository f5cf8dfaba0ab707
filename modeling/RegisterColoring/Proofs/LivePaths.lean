import Mathlib.Data.List.Nodup
import RegisterColoring.Live.Spread
import RegisterColoring.Proofs.Walk

/-!
# Liveness Along Paths

The spread of a register is computed from the simple paths of a function and from
the loops that they close. Liveness proper is about all paths: a register is
live into a block if some path from there comes to a read before it comes to a write.

One direction needs nothing. Whatever the computation adds has a reason: along a
path it goes backwards from a block that the register is live into, and around a
loop without writes everything is live if anything is.

The other direction fails in general. A simple path ends where it meets itself,
and a fact found behind that point has to come back around a loop. It does if no
write can lie on the way. `Presence.Settled` is what makes that so: where a
register is live through a block, it was written before on every path there, and
on a simple path to a write the register is not yet live through anything. A
register with a single writing block that comes before all its reads is settled,
and so is one that is live through no block at all.

## Main definitions

* `Presence.Live`: A read can be reached before a write.
* `Presence.Through`: Live from the start to the end of a block.
* `Presence.Settled`: Writes come before all blocks that a register is live through.

## Theorems

* `settle_fixed`: Enough passes reach a fixed point.
* `Presence.Sound.arrive`, `Presence.Sound.closeLoop`: What is added has a reason.
* `Presence.LiveFor.follow`: Follow a live path until it ends or meets itself.
* `Presence.mem_through_iff`, `Presence.mem_tails_iff`, `Presence.liveInto_iff`: The
  spread of a settled register is its liveness.
-/

namespace RegisterColoring

theorem mem_insertAll {l set : List Nat} {b : Nat} : b ∈ insertAll l set ↔ b ∈ l ∨ b ∈ set := by
  induction l with
  | nil => simp [insertAll]
  | cons c l ih =>
      have hstep : insertAll (c :: l) set = List.insert c (insertAll l set) := rfl
      rw [hstep, List.mem_insert_iff, ih, List.mem_cons, or_assoc]

theorem nodup_insertAll {l set : List Nat} (h : set.Nodup) : (insertAll l set).Nodup := by
  induction l with
  | nil => exact h
  | cons c l ih => exact List.Nodup.insert ih

/-- What is put into a list stands in front of it. -/
theorem exists_insertAll_eq (l set : List Nat) : ∃ new, insertAll l set = new ++ set := by
  induction l with
  | nil => exact ⟨[], rfl⟩
  | cons c l ih =>
      rcases ih with ⟨new, hnew⟩
      have hstep : insertAll (c :: l) set = List.insert c (insertAll l set) := rfl
      by_cases hc : c ∈ insertAll l set
      · exact ⟨new, by rw [hstep, List.insert_of_mem hc, hnew]⟩
      · exact ⟨c :: new, by rw [hstep, List.insert_of_not_mem hc, hnew, List.cons_append]⟩

/-- If every change of a value raises its size and the size stays below a limit,
    as many passes as are left to the limit reach a fixed point. -/
theorem settle_fixed {α : Type} [DecidableEq α] {f : α → α} (Inv : α → Prop) (size : α → Nat)
    {limit : Nat} (hinv : ∀ a, Inv a → Inv (f a)) (hlimit : ∀ a, Inv a → size a ≤ limit)
    (hgrow : ∀ a, f a ≠ a → size a < size (f a)) (n : Nat) (a : α) (ha : Inv a)
    (hn : limit ≤ size a + n) : f (settle f n a) = settle f n a := by
  induction n generalizing a with
  | zero =>
      -- A change would exceed the limit.
      by_contra hne
      have hless := hgrow a hne
      have := hlimit (f a) (hinv a ha)
      omega
  | succ n ih =>
      rw [settle]
      by_cases hfix : f a = a
      · rw [if_pos hfix, hfix]
      · rw [if_neg hfix]
        have := hgrow a hfix
        exact ih (f a) (hinv a ha) (by omega)

theorem settle_inv {α : Type} [DecidableEq α] {f : α → α} (Inv : α → Prop)
    (hinv : ∀ a, Inv a → Inv (f a)) (n : Nat) (a : α) (ha : Inv a) : Inv (settle f n a) := by
  induction n generalizing a with
  | zero => exact ha
  | succ n ih =>
      rw [settle]
      split
      · exact ha
      · exact ih (f a) (hinv a ha)

theorem foldl_inv {α β : Type} {f : α → β → α} {I : α → Prop} {l : List β}
    (h : ∀ a, ∀ b ∈ l, I a → I (f a b)) {a : α} (ha : I a) : I (l.foldl f a) := by
  induction l generalizing a with
  | nil => exact ha
  | cons b l ih =>
      rw [List.foldl_cons]
      exact ih (fun c d hd => h c d (by simp [hd])) (h a b (by simp) ha)

namespace Presence

/-- Some path from the start of the block reaches a read before a write. -/
inductive Live (p : Presence) (succ : Nat → List Nat) : Nat → Prop where
  /-- The block reads before it writes. -/
  | here {b : Nat} (h : b ∈ p.exposed) : Live p succ b
  /-- The block does not write, and the register is live into a successor. -/
  | there {b c : Nat} (hb : b ∉ p.written) (hc : c ∈ succ b) (h : Live p succ c) : Live p succ b

/-- The register is live into a successor of the block. -/
def LiveOut (p : Presence) (succ : Nat → List Nat) (b : Nat) : Prop :=
  ∃ c ∈ succ b, p.Live succ c

/-- The block does not write the register, which is live at its end. -/
def Through (p : Presence) (succ : Nat → List Nat) (b : Nat) : Prop :=
  b ∉ p.written ∧ p.LiveOut succ b

/-- Writes come before everything that the register is live through. -/
structure Settled (p : Presence) (succ : Nat → List Nat) : Prop where
  /-- Where the register is live through a block, it was written before. -/
  before : ∀ path b, Walk succ path b → p.Through succ b → ∃ c ∈ path, c ∈ p.written
  /-- On a simple path to a write, the register is live through no block. -/
  clear : ∀ path d, Walk succ path d → (d :: path).Nodup → d ∈ p.written →
    ∀ c ∈ path, ¬ p.Through succ c

variable {p : Presence} {succ : Nat → List Nat}

theorem Through.live {b : Nat} (h : p.Through succ b) : p.Live succ b := by
  rcases h with ⟨hb, c, hc, hlive⟩
  exact .there hb hc hlive

/-- A register that is live through no block is settled. -/
theorem Settled.of_not_through (h : ∀ b, ¬ p.Through succ b) : p.Settled succ where
  before := fun _ b _ hb => absurd hb (h b)
  clear := fun _ _ _ _ _ c _ => h c

/-- One writing block is enough, if it comes before all that the register is live through. -/
theorem Settled.of_single
    (hbefore : ∀ path b, Walk succ path b → p.Through succ b → ∃ c ∈ path, c ∈ p.written)
    (hsingle : ∀ c ∈ p.written, ∀ d ∈ p.written, c = d) : p.Settled succ where
  before := hbefore
  clear := by
    intro path d hwalk hnodup hd c hc hthrough
    -- The walk up to `c` holds the writing block, which would then occur twice.
    rcases List.append_of_mem hc with ⟨later, earlier, rfl⟩
    rcases hbefore earlier c (hwalk.tail_of_append) hthrough with ⟨e, he, hwritten⟩
    have heq : e = d := hsingle e hwritten d hd
    have hnot := (List.nodup_cons.mp hnodup).1
    exact hnot (by rw [← heq]; simp [he])

/-- If every walk to a read meets a write before, so does every walk to a block that
    the register is live into. -/
theorem Live.written_before (h : ∀ path e, Walk succ path e → e ∈ p.exposed →
      ∃ c ∈ path, c ∈ p.written) {b : Nat} (hlive : p.Live succ b) {path : List Nat}
    (hwalk : Walk succ path b) : ∃ c ∈ path, c ∈ p.written := by
  induction hlive generalizing path with
  | here hb => exact h path _ hwalk hb
  | there hb hc _ ih =>
      -- One step on, the write is found before; it is not in the block stepped from.
      rcases ih (hwalk.step hc) with ⟨d, hd, hwritten⟩
      rcases List.mem_cons.mp hd with rfl | hd
      · exact absurd hwritten hb
      · exact ⟨d, hd, hwritten⟩

/-- A register that one block writes, on every walk to a read of it. -/
theorem Settled.of_strict (hstrict : ∀ path e, Walk succ path e → e ∈ p.exposed →
      ∃ c ∈ path, c ∈ p.written)
    (hsingle : ∀ c ∈ p.written, ∀ d ∈ p.written, c = d) : p.Settled succ :=
  .of_single (fun _ _ hwalk hthrough => hthrough.live.written_before hstrict hwalk) hsingle

/-- Only membership counts. -/
theorem Live.congr {q : Presence} (hexposed : ∀ b, b ∈ q.exposed ↔ b ∈ p.exposed)
    (hwritten : ∀ b, b ∈ q.written ↔ b ∈ p.written) {b : Nat} (h : q.Live succ b) :
    p.Live succ b := by
  induction h with
  | here hb => exact .here ((hexposed _).mp hb)
  | there hb hc _ ih => exact .there (fun hw => hb ((hwritten _).mpr hw)) hc ih

theorem Through.congr {q : Presence} (hexposed : ∀ b, b ∈ q.exposed ↔ b ∈ p.exposed)
    (hwritten : ∀ b, b ∈ q.written ↔ b ∈ p.written) {b : Nat} (h : q.Through succ b) :
    p.Through succ b := by
  rcases h with ⟨hb, c, hc, hlive⟩
  exact ⟨fun hw => hb ((hwritten b).mpr hw), c, hc, hlive.congr hexposed hwritten⟩

theorem Settled.congr {q : Presence} (h : p.Settled succ)
    (hexposed : ∀ b, b ∈ q.exposed ↔ b ∈ p.exposed)
    (hwritten : ∀ b, b ∈ q.written ↔ b ∈ p.written) : q.Settled succ where
  before path b hwalk hthrough := by
    rcases h.before path b hwalk (hthrough.congr hexposed hwritten) with ⟨c, hc, hw⟩
    exact ⟨c, hc, (hwritten c).mpr hw⟩
  clear path d hwalk hnodup hd c hc hthrough :=
    h.clear path d hwalk hnodup ((hwritten d).mp hd) c hc (hthrough.congr hexposed hwritten)

/-- What a spread holds has a reason. -/
structure Sound (p : Presence) (succ : Nat → List Nat) (s : Spread) : Prop where
  through : ∀ b ∈ s.through, p.Through succ b
  tails : ∀ b ∈ s.tails, b ∈ p.written ∧ p.LiveOut succ b

/-- Backwards along a walk, up to the latest write, the register is live through
    every block, and live at the end of the writing one. -/
theorem through_of_walk {path : List Nat} {b : Nat} (hwalk : Walk succ path b)
    (hlive : p.Live succ b) :
    (∀ c ∈ path.takeWhile fun c => !p.written.contains c, p.Through succ c) ∧
      ∀ d ∈ (path.dropWhile fun c => !p.written.contains c).head?,
        d ∈ p.written ∧ p.LiveOut succ d := by
  induction hwalk with
  | start => simp
  | @step path c b walk edge ih =>
      have hout : p.LiveOut succ c := ⟨b, edge, hlive⟩
      by_cases hc : c ∈ p.written
      · -- The walk stops here, with the block that wrote the value.
        rw [List.takeWhile_cons_of_neg (by simp [hc]), List.dropWhile_cons_of_neg (by simp [hc])]
        refine ⟨by simp, fun d hd => ?_⟩
        have hd' : c = d := by simpa using hd
        exact hd' ▸ ⟨hc, hout⟩
      · have hthrough : p.Through succ c := ⟨hc, hout⟩
        rw [List.takeWhile_cons_of_pos (by simp [hc]), List.dropWhile_cons_of_pos (by simp [hc])]
        refine ⟨fun e he => ?_, (ih hthrough.live).2⟩
        rcases List.mem_cons.mp he with rfl | he
        · exact hthrough
        · exact (ih hthrough.live).1 e he

theorem through_of_walk_append {round rest : List Nat} {b c : Nat}
    (hwalk : Walk succ (round ++ c :: rest) b) (hlive : p.Live succ b)
    (hclean : ∀ d ∈ round ++ [c], d ∉ p.written) : ∀ d ∈ round ++ [c], p.Through succ d := by
  intro d hd
  refine (through_of_walk hwalk hlive).1 d ?_
  rw [← List.singleton_append, ← List.append_assoc,
    List.takeWhile_append_of_pos fun e he => by simpa using hclean e he]
  exact List.mem_append.mpr (Or.inl hd)

/-- Up to the first visit to a block, a path is what was put in front of it. -/
theorem takeWhile_ne_append {round rest : List Nat} {b : Nat} (hnot : b ∉ round) :
    (round ++ b :: rest).takeWhile (· ≠ b) = round := by
  rw [List.takeWhile_append_of_pos, List.takeWhile_cons_of_neg (by simp), List.append_nil]
  intro c hc
  have hne : c ≠ b := fun heq => hnot (heq ▸ hc)
  simpa using hne

/-- A loop is a path from a block back to it. -/
theorem exists_of_loop {a : Arrival} {body : List Nat} (h : a.loop? = some body) :
    ∃ round rest, a.path = round ++ a.block :: rest ∧ a.block ∉ round ∧
      body = round ++ [a.block] := by
  unfold Arrival.loop? at h
  by_cases hmem : a.path.contains a.block = true
  · rw [if_pos hmem, Option.some.injEq] at h
    rcases List.eq_append_cons_of_mem (by simpa using hmem : a.block ∈ a.path) with
      ⟨round, rest, hpath, hnot⟩
    refine ⟨round, rest, hpath, hnot, ?_⟩
    rw [← h, hpath, takeWhile_ne_append hnot]
  · rw [if_neg hmem] at h
    exact absurd h (by simp)

theorem loop_of_append {round rest : List Nat} {b : Nat} (hnot : b ∉ round) :
    Arrival.loop? ⟨round ++ b :: rest, b⟩ = some (round ++ [b]) := by
  unfold Arrival.loop?
  rw [if_pos (by simp)]
  exact congrArg (fun round => some (round ++ [b])) (takeWhile_ne_append hnot)

theorem liveInto_eq_true {s : Spread} {b : Nat} :
    p.liveInto s b = true ↔ b ∈ p.exposed ∨ b ∈ s.through := by
  simp [liveInto]

namespace Sound

variable {s : Spread}

theorem live (h : p.Sound succ s) {b : Nat} (hb : p.liveInto s b = true) : p.Live succ b := by
  rcases liveInto_eq_true.mp hb with hexposed | hthrough
  · exact .here hexposed
  · exact (h.through b hthrough).live

theorem arrive (h : p.Sound succ s) {a : Arrival} (hwalk : Walk succ a.path a.block) :
    p.Sound succ (p.arrive s a) := by
  unfold Presence.arrive
  by_cases hb : p.liveInto s a.block = true
  · rw [if_pos hb]
    -- The walk shows each block behind its last write to be passed through.
    have hreason := through_of_walk hwalk (h.live hb)
    unfold splitPath
    cases hrest : a.path.dropWhile fun c => !p.written.contains c with
    -- A path without writes gives nothing.
    | nil => exact h
    | cons origin rest =>
        rw [hrest] at hreason
        constructor
        · intro c hc
          rcases mem_insertAll.mp hc with hc | hc
          · exact hreason.1 c hc
          · exact h.through c hc
        · intro c hc
          rcases List.mem_insert_iff.mp hc with rfl | hc
          · exact hreason.2 c rfl
          · exact h.tails c hc
  · rw [if_neg hb]
    exact h

/-- Around a loop without writes, the register is live through all blocks if it is
    live into one of them. -/
theorem closeLoop (h : p.Sound succ s) {a : Arrival} (hwalk : Walk succ a.path a.block)
    {body : List Nat} (hbody : a.loop? = some body) : p.Sound succ (p.closeLoop s body) := by
  unfold Presence.closeLoop
  by_cases hcond : (body.any (p.liveInto s) && !body.any p.written.contains) = true
  · rw [if_pos hcond]
    rw [Bool.and_eq_true, List.any_eq_true] at hcond
    rcases hcond with ⟨⟨x, hx, hlive⟩, hclean⟩
    have hclean' : ∀ c ∈ body, c ∉ p.written := by
      intro c hc
      simp only [Bool.not_eq_true', List.any_eq_false] at hclean
      simpa using hclean c hc
    rcases exists_of_loop hbody with ⟨round, rest, hpath, _, rfl⟩
    rw [hpath] at hwalk
    -- Up from `x` to the block that closes the loop, and then once around.
    have hblock : p.Live succ a.block := by
      rcases List.mem_append.mp hx with hround | hlast
      · rcases List.append_of_mem hround with ⟨later, earlier, rfl⟩
        rw [List.append_assoc, List.cons_append] at hwalk
        refine (through_of_walk_append hwalk.tail_of_append (h.live hlive) (fun c hc => ?_)
          a.block (by simp)).live
        rcases List.mem_append.mp hc with hc | hc
        · exact hclean' c (by simp [hc])
        · exact hclean' c (by simp [List.mem_singleton.mp hc])
      · rw [← List.mem_singleton.mp hlast]
        exact h.live hlive
    constructor
    · intro c hc
      rcases mem_insertAll.mp hc with hc | hc
      · exact through_of_walk_append hwalk hblock hclean' c hc
      · exact h.through c hc
    · exact h.tails
  · rw [if_neg hcond]
    exact h

end Sound

/-- A spread that misses nothing the simple paths and the loops show. -/
structure Closed (p : Presence) (succ : Nat → List Nat) (s : Spread) : Prop where
  /-- The register lives from its latest write on a path to a read at its end. -/
  arrivals : ∀ between d rest e, Walk succ (between ++ d :: rest) e →
    (between ++ d :: rest).Nodup → e ∈ p.exposed → (∀ c ∈ between, c ∉ p.written) →
      d ∈ p.written → (∀ c ∈ between, c ∈ s.through) ∧ d ∈ s.tails
  /-- A loop without writes is live through if it is live into somewhere. -/
  loops : ∀ round rest b, Walk succ (round ++ b :: rest) b → (round ++ b :: rest).Nodup →
    (∀ c ∈ round ++ [b], c ∉ p.written) → (∃ c ∈ round ++ [b], p.liveInto s c = true) →
      ∀ c ∈ round ++ [b], c ∈ s.through

theorem mem_arrive_of_mem {s : Spread} {a : Arrival} :
    (∀ c ∈ s.through, c ∈ (p.arrive s a).through) ∧ ∀ c ∈ s.tails, c ∈ (p.arrive s a).tails := by
  unfold arrive
  by_cases hb : p.liveInto s a.block = true
  · rw [if_pos hb]
    rcases p.splitPath a.path with ⟨between, _ | ⟨origin, rest⟩⟩
    · exact ⟨fun c hc => hc, fun c hc => hc⟩
    · exact ⟨fun c hc => mem_insertAll.mpr (Or.inr hc),
        fun c hc => List.mem_insert_iff.mpr (Or.inr hc)⟩
  · rw [if_neg hb]
    exact ⟨fun c hc => hc, fun c hc => hc⟩

theorem mem_foldl_arrive_of_mem (p : Presence) (arrivals : List Arrival) (s : Spread) :
    (∀ c ∈ s.through, c ∈ (arrivals.foldl p.arrive s).through) ∧
      ∀ c ∈ s.tails, c ∈ (arrivals.foldl p.arrive s).tails := by
  induction arrivals generalizing s with
  | nil => exact ⟨fun c hc => hc, fun c hc => hc⟩
  | cons a arrivals ih =>
      have hone := mem_arrive_of_mem (p := p) (s := s) (a := a)
      have hrest := ih (p.arrive s a)
      exact ⟨fun c hc => hrest.1 c (hone.1 c hc), fun c hc => hrest.2 c (hone.2 c hc)⟩

theorem splitPath_append {between rest : List Nat} {d : Nat}
    (hclean : ∀ c ∈ between, c ∉ p.written) (hd : d ∈ p.written) :
    p.splitPath (between ++ d :: rest) = (between, d :: rest) := by
  have hpos : ∀ c ∈ between, (!p.written.contains c) = true := fun c hc => by
    simpa using hclean c hc
  unfold splitPath
  rw [List.takeWhile_append_of_pos hpos, List.dropWhile_append_of_pos hpos]
  rw [List.takeWhile_cons_of_neg (by simp [hd]), List.dropWhile_cons_of_neg (by simp [hd]),
    List.append_nil]

/-- An arrival at a read leaves its mark, whatever was found before it. -/
theorem mem_foldl_arrive {arrivals : List Arrival} {s : Spread} {between rest : List Nat}
    {d e : Nat} (hmem : ⟨between ++ d :: rest, e⟩ ∈ arrivals) (he : e ∈ p.exposed)
    (hclean : ∀ c ∈ between, c ∉ p.written) (hd : d ∈ p.written) :
    (∀ c ∈ between, c ∈ (arrivals.foldl p.arrive s).through) ∧
      d ∈ (arrivals.foldl p.arrive s).tails := by
  induction arrivals generalizing s with
  | nil => exact absurd hmem (by simp)
  | cons a arrivals ih =>
      rcases List.mem_cons.mp hmem with rfl | hmem
      · have hlive : p.liveInto s e = true := liveInto_eq_true.mpr (Or.inl he)
        have hhere : p.arrive s ⟨between ++ d :: rest, e⟩ =
            { through := insertAll between s.through, tails := s.tails.insert d } := by
          unfold arrive
          rw [if_pos hlive, splitPath_append hclean hd]
        -- What this arrival inserts is still there after the later ones.
        have hlater := mem_foldl_arrive_of_mem p arrivals (p.arrive s ⟨between ++ d :: rest, e⟩)
        rw [hhere] at hlater
        rw [List.foldl_cons, hhere]
        exact ⟨fun c hc => hlater.1 c (mem_insertAll.mpr (Or.inl hc)),
          hlater.2 d (List.mem_insert_iff.mpr (Or.inl rfl))⟩
      · exact ih hmem

/-- Closing a loop puts blocks in front of those that are there. -/
theorem exists_closeLoop_eq (p : Presence) (s : Spread) (body : List Nat) :
    ∃ new, p.closeLoop s body = { s with through := new ++ s.through } := by
  unfold closeLoop
  by_cases hcond : (body.any (p.liveInto s) && !body.any p.written.contains) = true
  · rw [if_pos hcond]
    rcases exists_insertAll_eq body s.through with ⟨new, hnew⟩
    exact ⟨new, by rw [hnew]⟩
  · rw [if_neg hcond]
    exact ⟨[], rfl⟩

theorem exists_foldl_closeLoop_eq (p : Presence) (s : Spread) (loops : List (List Nat)) :
    ∃ new, loops.foldl p.closeLoop s = { s with through := new ++ s.through } := by
  induction loops generalizing s with
  | nil => exact ⟨[], rfl⟩
  | cons body loops ih =>
      rcases exists_closeLoop_eq p s body with ⟨new, hnew⟩
      rcases ih (p.closeLoop s body) with ⟨more, hmore⟩
      refine ⟨more ++ new, ?_⟩
      rw [List.foldl_cons, hmore, hnew, List.append_assoc]

/-- If a pass over the loops changes nothing, no single loop does. -/
theorem closeLoop_eq_of_foldl_eq {s : Spread} {loops : List (List Nat)}
    (h : loops.foldl p.closeLoop s = s) : ∀ body ∈ loops, p.closeLoop s body = s := by
  induction loops with
  | nil => simp
  | cons body loops ih =>
      rw [List.foldl_cons] at h
      rcases exists_closeLoop_eq p s body with ⟨new, hnew⟩
      rcases exists_foldl_closeLoop_eq p (p.closeLoop s body) loops with ⟨more, hmore⟩
      -- A pass only puts blocks in front, so by its length this loop has put none.
      have hlen := congrArg (fun t : Spread => t.through.length) (hmore.symm.trans h)
      simp only [hnew, List.length_append] at hlen
      have hnil : new = [] := List.length_eq_zero_iff.mp (by omega)
      have hsame : p.closeLoop s body = s := by rw [hnew, hnil, List.nil_append]
      rw [hsame] at h
      intro other hother
      rcases List.mem_cons.mp hother with rfl | hother
      · exact hsame
      · exact ih h other hother

/-- The blocks of a spread are different and lie below `size`. -/
def Bounded (size : Nat) (s : Spread) : Prop :=
  s.through.Nodup ∧ ∀ c ∈ s.through, c < size

theorem Bounded.arrive {size : Nat} {s : Spread} (h : Bounded size s) {a : Arrival}
    (ha : ∀ c ∈ a.path, c < size) : Bounded size (p.arrive s a) := by
  unfold Presence.arrive
  by_cases hb : p.liveInto s a.block = true
  · rw [if_pos hb]
    unfold splitPath
    cases a.path.dropWhile fun c => !p.written.contains c with
    | nil => exact h
    | cons origin rest =>
        refine ⟨nodup_insertAll h.1, fun c hc => ?_⟩
        -- New blocks are on the path.
        rcases mem_insertAll.mp hc with hc | hc
        · exact ha c ((List.takeWhile_sublist _).subset hc)
        · exact h.2 c hc
  · rw [if_neg hb]
    exact h

theorem Bounded.closeLoop {size : Nat} {s : Spread} (h : Bounded size s) {body : List Nat}
    (hbody : ∀ c ∈ body, c < size) : Bounded size (p.closeLoop s body) := by
  unfold Presence.closeLoop
  by_cases hcond : (body.any (p.liveInto s) && !body.any p.written.contains) = true
  · rw [if_pos hcond]
    refine ⟨nodup_insertAll h.1, fun c hc => ?_⟩
    rcases mem_insertAll.mp hc with hc | hc
    · exact hbody c hc
    · exact h.2 c hc
  · rw [if_neg hcond]
    exact h

section Spread

variable {size : Nat} {arrivals : List Arrival}
  (harrivals : ∀ path b, ⟨path, b⟩ ∈ arrivals ↔ Walk succ path b ∧ path.Nodup)
  (hsize : ∀ path b, Walk succ path b → b < size ∧ ∀ c ∈ path, c < size)

include harrivals

theorem exists_arrival_of_loop {body : List Nat}
    (h : body ∈ arrivals.filterMap Arrival.loop?) :
    ∃ a : Arrival, Walk succ a.path a.block ∧ a.loop? = some body := by
  rcases List.mem_filterMap.mp h with ⟨a, ha, hloop⟩
  exact ⟨a, ((harrivals a.path a.block).mp ha).1, hloop⟩

/-- What the computation finds has a reason. -/
theorem spread_sound :
    p.Sound succ (p.spread size arrivals (arrivals.filterMap Arrival.loop?)) := by
  refine settle_inv (p.Sound succ) (fun s hs => ?_) size _ ?_
  · refine foldl_inv (fun t body hbody ht => ?_) hs
    rcases exists_arrival_of_loop harrivals hbody with ⟨a, hwalk, hloop⟩
    exact ht.closeLoop hwalk hloop
  · refine foldl_inv (fun t a ha ht => ht.arrive ((harrivals a.path a.block).mp ha).1) ?_
    exact ⟨by simp, by simp⟩

include hsize

/-- The passes over the loops end with one that changes nothing. -/
theorem spread_fixed :
    (arrivals.filterMap Arrival.loop?).foldl p.closeLoop
        (p.spread size arrivals (arrivals.filterMap Arrival.loop?)) =
      p.spread size arrivals (arrivals.filterMap Arrival.loop?) := by
  refine settle_fixed (f := fun s => (arrivals.filterMap Arrival.loop?).foldl p.closeLoop s)
    (Bounded size) (fun s => s.through.length) (fun s hs => ?_) (fun s hs => ?_)
    (fun s hne => ?_) size _ ?_ (Nat.le_add_left _ _)
  · -- Blocks of a loop are blocks of a path, so they stay below the limit.
    refine foldl_inv (fun t body hbody ht => ht.closeLoop fun c hc => ?_) hs
    rcases exists_arrival_of_loop harrivals hbody with ⟨a, hwalk, hloop⟩
    rcases exists_of_loop hloop with ⟨round, rest, hpath, _, rfl⟩
    have hbound := (hsize a.path a.block hwalk).2
    refine hbound c ?_
    rw [hpath]
    rcases List.mem_append.mp hc with hc | hc
    · simp [hc]
    · simp [List.mem_singleton.mp hc]
  · have hsub : s.through ⊆ List.range size := fun c hc => List.mem_range.mpr (hs.2 c hc)
    have := hs.1.length_le_of_subset hsub
    simpa using this
  · -- A pass that changes something adds a block.
    rcases exists_foldl_closeLoop_eq p s (arrivals.filterMap Arrival.loop?) with ⟨new, hnew⟩
    rw [hnew, List.length_append]
    have hpos : new ≠ [] := by
      rintro rfl
      exact hne (by rw [hnew, List.nil_append])
    have := List.length_pos_iff.mpr hpos
    omega
  · refine foldl_inv (fun t a ha ht => ht.arrive ?_) ⟨List.nodup_nil, by simp⟩
    exact (hsize a.path a.block ((harrivals a.path a.block).mp ha).1).2

/-- The computation misses nothing that simple paths and loops show. -/
theorem spread_closed :
    p.Closed succ (p.spread size arrivals (arrivals.filterMap Arrival.loop?)) := by
  -- Closing loops takes nothing away of what the arrivals have found.
  have hgrow : ∀ n s, (∀ c ∈ s.through, c ∈ (settle (fun s =>
      (arrivals.filterMap Arrival.loop?).foldl p.closeLoop s) n s).through) ∧
        ∀ c ∈ s.tails, c ∈ (settle (fun s =>
          (arrivals.filterMap Arrival.loop?).foldl p.closeLoop s) n s).tails := by
    intro n s
    refine settle_inv (fun t => (∀ c ∈ s.through, c ∈ t.through) ∧ ∀ c ∈ s.tails, c ∈ t.tails)
      (fun t ht => ?_) n s ⟨fun c hc => hc, fun c hc => hc⟩
    rcases exists_foldl_closeLoop_eq p t (arrivals.filterMap Arrival.loop?) with ⟨new, hnew⟩
    rw [hnew]
    exact ⟨fun c hc => List.mem_append.mpr (Or.inr (ht.1 c hc)), ht.2⟩
  constructor
  · intro between d rest e hwalk hnodup he hclean hd
    have hmem := (harrivals _ e).mpr ⟨hwalk, hnodup⟩
    have hfound := mem_foldl_arrive (s := ⟨[], []⟩) hmem he hclean hd
    have hkept := hgrow size (arrivals.foldl p.arrive ⟨[], []⟩)
    exact ⟨fun c hc => hkept.1 c (hfound.1 c hc), hkept.2 d hfound.2⟩
  · intro round rest b hwalk hnodup hclean hlive c hc
    have hnot : b ∉ round := by
      intro hb
      have hdis := (List.nodup_append.mp hnodup).2.2
      exact hdis b hb b (by simp) rfl
    have hmem : round ++ [b] ∈ arrivals.filterMap Arrival.loop? :=
      List.mem_filterMap.mpr ⟨⟨round ++ b :: rest, b⟩, (harrivals _ b).mpr ⟨hwalk, hnodup⟩,
        loop_of_append hnot⟩
    -- At the fixed point, closing this loop once more adds nothing, so it was all there.
    have hsame := closeLoop_eq_of_foldl_eq (spread_fixed (p := p) harrivals hsize) _ hmem
    have hcond : ((round ++ [b]).any (p.liveInto
        (p.spread size arrivals (arrivals.filterMap Arrival.loop?))) &&
          !(round ++ [b]).any p.written.contains) = true := by
      rw [Bool.and_eq_true, List.any_eq_true, Bool.not_eq_true', List.any_eq_false]
      exact ⟨hlive, fun e he => by simpa using hclean e he⟩
    unfold closeLoop at hsame
    rw [if_pos hcond] at hsame
    rw [← hsame]
    exact mem_insertAll.mpr (Or.inl hc)

end Spread

/-- A read is at most `k` steps away. -/
inductive LiveFor (p : Presence) (succ : Nat → List Nat) : Nat → Nat → Prop where
  | here {k b : Nat} (h : b ∈ p.exposed) : LiveFor p succ k b
  | there {k b c : Nat} (hb : b ∉ p.written) (hc : c ∈ succ b) (h : LiveFor p succ k c) :
      LiveFor p succ (k + 1) b

theorem Live.exists_liveFor {b : Nat} (h : p.Live succ b) : ∃ k, p.LiveFor succ k b := by
  induction h with
  | here h => exact ⟨0, .here h⟩
  | there hb hc _ ih =>
      rcases ih with ⟨k, hk⟩
      exact ⟨k + 1, .there hb hc hk⟩

theorem LiveFor.live {k b : Nat} (h : p.LiveFor succ k b) : p.Live succ b := by
  induction h with
  | here h => exact .here h
  | there hb hc _ ih => exact .there hb hc ih

/-- A simple path to `c` that goes on from `o :: path` over blocks without writes. -/
structure Ahead (p : Presence) (succ : Nat → List Nat) (o : Nat) (path front : List Nat)
    (c : Nat) : Prop where
  walk : Walk succ (front ++ o :: path) c
  nodup : (front ++ o :: path).Nodup
  clean : ∀ d ∈ front, d ∉ p.written

theorem Ahead.start {o c : Nat} {path : List Nat} (hwalk : Walk succ path o)
    (hnodup : (o :: path).Nodup) (hc : c ∈ succ o) : p.Ahead succ o path [] c where
  walk := .step hwalk hc
  nodup := hnodup
  clean := by simp

theorem Ahead.step {o c d : Nat} {path front : List Nat} (h : p.Ahead succ o path front c)
    (hc : c ∉ p.written) (hnew : c ∉ front ++ o :: path) (hd : d ∈ succ c) :
    p.Ahead succ o path (c :: front) d where
  walk := .step h.walk hd
  nodup := List.nodup_cons.mpr ⟨hnew, h.nodup⟩
  clean := by simpa using ⟨hc, h.clean⟩

/-- A path that comes back to a block can be cut there. -/
theorem Ahead.cut {o c : Nat} {path front : List Nat} (h : p.Ahead succ o path front c)
    (hc : c ∈ front) : ∃ shorter, p.Ahead succ o path shorter c ∧ c ∉ shorter ++ o :: path := by
  rcases List.append_of_mem hc with ⟨later, earlier, rfl⟩
  have hwalk := h.walk
  have hnodup := h.nodup
  rw [List.append_assoc, List.cons_append] at hwalk hnodup
  have hrest := List.nodup_cons.mp (List.nodup_append.mp hnodup).2.1
  exact ⟨earlier, ⟨hwalk.tail_of_append, hrest.2, fun d hd => h.clean d (by simp [hd])⟩, hrest.1⟩

/-- Where the end of the earlier path has no writes, a path ahead may count as one
    from the block before them. -/
theorem Ahead.append {o c d : Nat} {between rest front : List Nat}
    (h : p.Ahead succ o (between ++ d :: rest) front c) (ho : o ∉ p.written)
    (hclean : ∀ e ∈ between, e ∉ p.written) : p.Ahead succ d rest (front ++ o :: between) c := by
  have hpath : front ++ o :: (between ++ d :: rest) = (front ++ o :: between) ++ d :: rest := by
    simp
  refine ⟨hpath ▸ h.walk, hpath ▸ h.nodup, fun e he => ?_⟩
  rcases List.mem_append.mp he with he | he
  · exact h.clean e he
  · rcases List.mem_cons.mp he with rfl | he
    · exact ho
    · exact hclean e he

/-- Follow a live path from the end of a simple one. It comes to its read without
    meeting that path, or it meets it in a block from where the read is nearer. -/
theorem LiveFor.follow {k c : Nat} (h : p.LiveFor succ k c) {front path : List Nat} {o : Nat}
    (hahead : p.Ahead succ o path front c) :
    (∃ ahead, ∃ e ∈ p.exposed, p.Ahead succ o path ahead e) ∨
      ∃ ahead d, p.Ahead succ o path ahead d ∧ d ∈ o :: path ∧ d ∉ p.written ∧
        ∃ j < k, ∃ e ∈ succ d, p.LiveFor succ j e := by
  induction h generalizing front with
  | @here k c he => exact Or.inl ⟨front, c, he, hahead⟩
  | @there k c d hc hd hlive ih =>
      by_cases hmeet : c ∈ o :: path
      · exact Or.inr ⟨front, c, hahead, hmeet, hc, k, by omega, d, hd, hlive⟩
      · -- A block met earlier on the way is a detour, which is cut off first.
        have hnew : ∃ shorter, p.Ahead succ o path shorter c ∧ c ∉ shorter ++ o :: path := by
          by_cases hfront : c ∈ front
          · exact hahead.cut hfront
          · exact ⟨front, hahead, fun hin => (List.mem_append.mp hin).elim hfront hmeet⟩
        rcases hnew with ⟨shorter, hshort, hnot⟩
        rcases ih (hshort.step hc hnot hd) with hread | ⟨ahead, e, hthere, he, hw, j, hj, hlive'⟩
        · exact Or.inl hread
        · exact Or.inr ⟨ahead, e, hthere, he, hw, j, by omega, hlive'⟩

/-- A path with a write on it has a latest one. -/
theorem exists_latest_write {path : List Nat} (h : ∃ c ∈ path, c ∈ p.written) :
    ∃ between d rest, path = between ++ d :: rest ∧ (∀ c ∈ between, c ∉ p.written) ∧
      d ∈ p.written := by
  induction path with
  | nil => simp at h
  | cons c path ih =>
      by_cases hc : c ∈ p.written
      · exact ⟨[], c, path, rfl, by simp, hc⟩
      · rcases h with ⟨e, he, hwritten⟩
        rcases List.mem_cons.mp he with rfl | he
        · exact absurd hwritten hc
        · rcases ih ⟨e, he, hwritten⟩ with ⟨between, d, rest, rfl, hclean, hd⟩
          exact ⟨c :: between, d, rest, rfl, by simpa using ⟨hc, hclean⟩, hd⟩

section Exact

variable {s : Spread}

/-- Of a settled register, every block that it is live through is found. -/
theorem Closed.mem_through (hclosed : p.Closed succ s) (hsettled : p.Settled succ) {k b c : Nat}
    (hreach : ∃ path, Walk succ path b) (hb : b ∉ p.written) (hc : c ∈ succ b)
    (hlive : p.LiveFor succ k c) : b ∈ s.through := by
  -- By induction on the distance of the read, for all blocks at once: where the way
  -- to it meets an earlier block, that block is live through and nearer to the read.
  induction k using Nat.strongRecOn generalizing b c with
  | _ k ih =>
      rcases hreach with ⟨path, hwalk⟩
      rcases hwalk.shorten with ⟨short, hwalk, hnodup, _⟩
      have hthrough : p.Through succ b := ⟨hb, c, hc, hlive.live⟩
      rcases exists_latest_write (hsettled.before short b hwalk hthrough) with
        ⟨between, d, rest, rfl, hclean, hd⟩
      rcases hlive.follow (.start hwalk hnodup hc) with
        ⟨ahead, e, he, hahead⟩ | ⟨ahead, x, hahead, hx, hxw, j, hj, e, hxe, hlive'⟩
      · -- The read is reached on a simple path, which an arrival shows.
        have hread := hahead.append hb hclean
        exact (hclosed.arrivals _ d rest e hread.walk hread.nodup he hread.clean hd).1 b (by simp)
      · rcases List.mem_cons.mp hx with rfl | hx
        · -- Back at `b` itself, from where the read is nearer now.
          exact ih j hj ⟨_, hwalk⟩ hxw hxe hlive'
        · have hxthrough : p.Through succ x := ⟨hxw, e, hxe, hlive'.live⟩
          rcases List.mem_append.mp hx with hx | hx
          · -- The path is met again, after its latest write: that closes a loop.
            rcases List.append_of_mem hx with ⟨later, earlier, rfl⟩
            rw [List.append_assoc, List.cons_append] at hahead
            have hloop := hahead.append hb fun y hy => hclean y (by simp [hy])
            have hxfound : x ∈ s.through := ih j hj ⟨_, hloop.walk.tail_of_append⟩ hxw hxe hlive'
            refine hclosed.loops _ _ x hloop.walk hloop.nodup (fun y hy => ?_)
              ⟨x, by simp, liveInto_eq_true.mpr (Or.inr hxfound)⟩ b (by simp)
            rcases List.mem_append.mp hy with hy | hy
            · exact hloop.clean y hy
            · rw [List.mem_singleton.mp hy]
              exact hxw
          · rcases List.mem_cons.mp hx with rfl | hx
            · exact absurd hd hxw
            · -- Before the write, the register is not yet live through anything.
              have hnodup' := (List.nodup_append.mp (List.nodup_cons.mp hnodup).2).2.1
              exact absurd hxthrough
                (hsettled.clear rest d hwalk.tail_of_append hnodup' hd x hx)

/-- Of a settled register, every write that is live at the end of its block is found. -/
theorem Closed.mem_tails (hclosed : p.Closed succ s) (hsettled : p.Settled succ) {b : Nat}
    (hreach : ∃ path, Walk succ path b) (hb : b ∈ p.written) (hout : p.LiveOut succ b) :
    b ∈ s.tails := by
  rcases hreach with ⟨path, hwalk⟩
  rcases hwalk.shorten with ⟨short, hwalk, hnodup, _⟩
  rcases hout with ⟨c, hc, hlive⟩
  rcases hlive.exists_liveFor with ⟨k, hk⟩
  rcases hk.follow (.start hwalk hnodup hc) with
    ⟨ahead, e, he, hahead⟩ | ⟨ahead, x, hahead, hx, hxw, j, hj, e, hxe, hlive'⟩
  · exact (hclosed.arrivals ahead b short e hahead.walk hahead.nodup he hahead.clean hb).2
  · -- No block before the write is live through, so the path cannot be met again.
    rcases List.mem_cons.mp hx with rfl | hx
    · exact absurd hb hxw
    · exact absurd ⟨hxw, e, hxe, hlive'.live⟩ (hsettled.clear short b hwalk hnodup hb x hx)

variable (hsound : p.Sound succ s) (hclosed : p.Closed succ s) (hsettled : p.Settled succ)

include hsound hclosed hsettled

theorem mem_through_iff {b : Nat} (hreach : ∃ path, Walk succ path b) :
    b ∈ s.through ↔ p.Through succ b := by
  constructor
  · exact hsound.through b
  · rintro ⟨hb, c, hc, hlive⟩
    rcases hlive.exists_liveFor with ⟨k, hk⟩
    exact hclosed.mem_through hsettled hreach hb hc hk

theorem mem_tails_iff {b : Nat} (hreach : ∃ path, Walk succ path b) :
    b ∈ s.tails ↔ b ∈ p.written ∧ p.LiveOut succ b := by
  constructor
  · exact hsound.tails b
  · rintro ⟨hb, hout⟩
    exact hclosed.mem_tails hsettled hreach hb hout

theorem liveInto_iff {b : Nat} (hreach : ∃ path, Walk succ path b) :
    p.liveInto s b = true ↔ p.Live succ b := by
  constructor
  · exact hsound.live
  · intro h
    cases h with
    | here he => exact liveInto_eq_true.mpr (Or.inl he)
    | there hb hc hlive =>
        refine liveInto_eq_true.mpr (Or.inr ?_)
        exact (mem_through_iff hsound hclosed hsettled hreach).mpr ⟨hb, _, hc, hlive⟩

end Exact

end Presence

end RegisterColoring
