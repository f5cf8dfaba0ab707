import Mathlib.Data.List.Sort
import RegisterColoring.Live.Analysis
import RegisterColoring.Proofs.LivePaths

/-!
# Keyed Ranges

What the ledger of physical registers holds once all writes are filed.

The writes of a family come in any order, so that its list may move several
times before the widest register is met. The invariant is that each family has
one register with ranges, that this register was written and contains all
others of the family that were, and that it has the ranges of all their writes.
One write keeps this, and so do all of them.

The invariant leaves one ledger to be found: the registers with ranges are the
widest ones of those that are written anywhere, and a write belongs to the
widest register of its family. This description needs no order of the writes.

## Main definitions

* `Ledger.under`: The ranges that are kept under a register.
* `Ledger.Gathers`: Several lists have moved under one register.
* `Ledger.Files`: The ledger holds the given writes.
* `Function.writtenPhysicals`, `physicalRanges`: The description without a ledger.

## Theorems

* `Ledger.Ordered.under_add`, `Ledger.Ordered.under_move`: Ranges after one operation.
* `Ledger.Ordered.gathers_key`: Ranges after a family has come together.
* `Ledger.Files.file`: One write more.
* `files_ledgerOf`: All writes of the blocks.
* `entries_ledgerOf`: The ledger is the one described.
-/

namespace RegisterColoring

variable {M : Machine}

section Widest

variable {written : List M.Reg} {p q : M.Reg}

/-- The widest of some registers is one of them. -/
theorem widest_cases (written : List M.Reg) (p : M.Reg) :
    widest written p = p ∨ widest written p ∈ written := by
  refine foldl_inv (I := fun w => w = p ∨ w ∈ written) (fun w q hq hw => ?_) (Or.inl rfl)
  split
  · exact Or.inr hq
  · exact hw

theorem widest_mem (hp : p ∈ written) : widest written p ∈ written := by
  rcases widest_cases written p with heq | hmem
  · rw [heq]
    exact hp
  · exact hmem

/-- The widest register contains all those that it was chosen from. -/
theorem contains_widest (written : List M.Reg) (p : M.Reg) :
    Machine.contains (widest written p) p = true ∧
      ∀ q ∈ written, Machine.aliases q p = true → Machine.contains (widest written p) q = true := by
  induction written generalizing p with
  | nil => exact ⟨Machine.contains_refl p, by simp⟩
  | cons w rest ih =>
      have hstep : widest (w :: rest) p =
          widest rest (if Machine.contains w p = true then w else p) := rfl
      rw [hstep]
      by_cases hw : Machine.contains w p = true
      · rw [if_pos hw]
        rcases ih w with ⟨hself, hrest⟩
        refine ⟨Machine.contains_trans hself hw, fun q hq halias => ?_⟩
        rcases List.mem_cons.mp hq with rfl | hq
        · exact hself
        · exact hrest q hq (Machine.aliases_trans halias
            (Machine.aliases_symm (Machine.aliases_of_contains hw)))
      · rw [if_neg hw]
        rcases ih p with ⟨hself, hrest⟩
        refine ⟨hself, fun q hq halias => ?_⟩
        rcases List.mem_cons.mp hq with rfl | hq
        · -- A register of the family that does not contain `p` is part of it.
          rw [Machine.contains_iff, not_and] at hw
          have hfamily := Machine.aliases_iff.mp halias
          have hnarrow := hw hfamily
          exact Machine.contains_trans hself
            (Machine.contains_iff.mpr ⟨hfamily.symm, by omega⟩)
        · exact hrest q hq halias

end Widest

namespace Ledger

variable {l g : Ledger M} {key p q r : M.Reg} {ranges : List LiveRange} {x : LiveRange}

/-- The registers of the ledger are in order. -/
def Ordered (l : Ledger M) : Prop :=
  l.Pairwise fun a b => Machine.regBelow a.1 b.1 = true

/-- The ranges that are kept under a register. -/
def under (l : Ledger M) (q : M.Reg) : List LiveRange :=
  (l.lookup q).getD []

theorem under_cons (l : Ledger M) (q r : M.Reg) (kept : List LiveRange) :
    under ((q, kept) :: l) r = if r = q then kept else under l r := by
  unfold under
  rw [List.lookup_cons]
  by_cases hr : r = q
  · simp [hr]
  · have hne : (r == q) = false := by simpa using hr
    rw [hne, if_neg hr]

theorem mem_keys_cons {kept : List LiveRange} :
    r ∈ keys ((q, kept) :: l) ↔ r = q ∨ r ∈ l.keys := by
  simp [keys]

theorem under_eq_nil (h : q ∉ l.keys) : l.under q = [] := by
  induction l with
  | nil => rfl
  | cons entry l ih =>
      rw [mem_keys_cons, not_or] at h
      rw [under_cons, if_neg h.1]
      exact ih h.2

theorem mem_keys_of_mem_under (h : x ∈ l.under q) : q ∈ l.keys := by
  by_contra hq
  rw [under_eq_nil hq] at h
  exact absurd h (by simp)

theorem Ordered.below_of_mem {kept : List LiveRange} (h : Ordered ((q, kept) :: l))
    (hr : r ∈ l.keys) : Machine.regBelow q r = true := by
  rcases List.mem_map.mp hr with ⟨entry, hentry, rfl⟩
  exact (List.pairwise_cons.mp h).1 entry hentry

theorem mem_keys_add : r ∈ (add key ranges l).keys ↔ r = key ∨ r ∈ l.keys := by
  induction l with
  | nil => simp [add, keys]
  | cons entry l ih =>
      obtain ⟨q, kept⟩ := entry
      unfold add
      split
      · exact mem_keys_cons
      · rename_i hkq
        split
        · rw [mem_keys_cons, ih, mem_keys_cons]
          exact or_left_comm
        · rename_i hqk
          have hsame : key = q :=
            Machine.regBelow_apart _ _ (by simpa using hkq) (by simpa using hqk)
          rw [mem_keys_cons, mem_keys_cons, hsame]
          simp

theorem Ordered.add (h : l.Ordered) : (add key ranges l).Ordered := by
  induction l with
  | nil => exact List.pairwise_singleton _ _
  | cons entry l ih =>
      obtain ⟨q, kept⟩ := entry
      rcases List.pairwise_cons.mp h with ⟨hfirst, hrest⟩
      unfold Ledger.add
      split
      · rename_i hkq
        refine List.pairwise_cons.mpr ⟨fun entry hentry => ?_, h⟩
        rcases List.mem_cons.mp hentry with rfl | hentry
        · exact hkq
        · exact Machine.regBelow_trans _ _ _ hkq (hfirst entry hentry)
      · split
        · rename_i hqk
          refine List.pairwise_cons.mpr ⟨fun entry hentry => ?_, ih hrest⟩
          rcases mem_keys_add.mp (List.mem_map_of_mem (f := Prod.fst) hentry) with heq | hmem
          · rwa [heq]
          · exact h.below_of_mem hmem
        · exact List.pairwise_cons.mpr ⟨hfirst, hrest⟩

theorem Ordered.under_add (h : l.Ordered) :
    (Ledger.add key ranges l).under r = if r = key then l.under key ++ ranges else l.under r := by
  induction l with
  | nil => rw [Ledger.add, under_cons]; rfl
  | cons entry l ih =>
      obtain ⟨q, kept⟩ := entry
      have hrest := (List.pairwise_cons.mp h).2
      unfold Ledger.add
      split
      · -- A register below the first is none of those with ranges.
        rename_i hkq
        have hnew : key ∉ keys ((q, kept) :: l) := by
          intro hmem
          rcases mem_keys_cons.mp hmem with rfl | hmem
          · exact Machine.regBelow_irrefl key hkq
          · exact Machine.regBelow_irrefl key
              (Machine.regBelow_trans _ _ _ hkq (h.below_of_mem hmem))
        rw [under_cons, under_eq_nil hnew, List.nil_append]
      · rename_i hkq
        split
        · rename_i hqk
          have hne : key ≠ q := fun heq => Machine.regBelow_irrefl q (heq ▸ hqk)
          rw [under_cons, ih hrest, under_cons, if_neg hne, under_cons]
          by_cases hr : r = key
          · rw [if_neg (hr ▸ hne), if_pos hr, if_pos hr]
          · rw [if_neg hr, if_neg hr]
        · rename_i hqk
          have hsame : key = q :=
            Machine.regBelow_apart _ _ (by simpa using hkq) (by simpa using hqk)
          subst hsame
          rw [under_cons, under_cons, if_pos rfl, under_cons]
          by_cases hr : r = key
          · rw [if_pos hr, if_pos hr]
          · rw [if_neg hr, if_neg hr, if_neg hr]

theorem mem_keys_filter :
    r ∈ keys (l.filter fun entry => decide (entry.1 ≠ q)) ↔ r ∈ l.keys ∧ r ≠ q := by
  simp only [keys, List.mem_map, List.mem_filter, decide_eq_true_eq]
  constructor
  · rintro ⟨entry, ⟨hentry, hne⟩, rfl⟩
    exact ⟨⟨entry, hentry, rfl⟩, hne⟩
  · rintro ⟨⟨entry, hentry, rfl⟩, hne⟩
    exact ⟨entry, ⟨hentry, hne⟩, rfl⟩

theorem under_filter :
    under (l.filter fun entry => decide (entry.1 ≠ q)) r = if r = q then [] else l.under r := by
  induction l with
  | nil => simp [under]
  | cons entry l ih =>
      obtain ⟨p, kept⟩ := entry
      by_cases hp : p = q
      · subst hp
        rw [List.filter_cons_of_neg (by simp), ih, under_cons]
        split <;> rfl
      · rw [List.filter_cons_of_pos (by simpa using hp), under_cons, ih, under_cons]
        by_cases hr : r = p
        · rw [if_pos hr, if_pos hr, if_neg (hr ▸ hp)]
        · rw [if_neg hr, if_neg hr]

theorem Ordered.move (h : l.Ordered) : (move key l q).Ordered := by
  unfold Ledger.move
  split
  · exact h
  · exact Ordered.add (h.filter _)

theorem mem_keys_move (hne : r ≠ key) : r ∈ (move key l q).keys ↔ r ∈ l.keys ∧ r ≠ q := by
  unfold move
  split
  · rename_i hnone
    refine (and_iff_left_of_imp ?_).symm
    rintro hr rfl
    rw [List.lookup_eq_none_iff] at hnone
    rcases List.mem_map.mp hr with ⟨entry, hentry, heq⟩
    exact absurd (hnone entry hentry) (by simp [heq])
  · rw [mem_keys_add, or_iff_right hne, mem_keys_filter]

theorem Ordered.under_move (h : l.Ordered) (hne : q ≠ key) :
    (Ledger.move key l q).under r =
      if r = key then l.under key ++ l.under q else if r = q then [] else l.under r := by
  unfold Ledger.move
  split
  · -- Nothing is kept under `q`, so nothing moves.
    rename_i hnone
    have hempty : l.under q = [] := by rw [under, hnone, Option.getD_none]
    rw [hempty, List.append_nil]
    by_cases hr : r = key
    · rw [if_pos hr, hr]
    · rw [if_neg hr]
      split
      · rename_i hrq
        rw [hrq, hempty]
      · rfl
  · rename_i kept hkept
    have hunder : l.under q = kept := by rw [under, hkept, Option.getD_some]
    have hfilter : Ordered (l.filter fun entry => decide (entry.1 ≠ q)) := List.Pairwise.filter _ h
    rw [hfilter.under_add, under_filter, under_filter, if_neg hne.symm, hunder]

/-- What `l` keeps under `key` and `others` is under `key` in `g`, and all else is as it was. -/
structure Gathers (l : Ledger M) (key : M.Reg) (others : List M.Reg) (g : Ledger M) : Prop where
  ordered : g.Ordered
  mem_keys : ∀ r, r ≠ key → (r ∈ g.keys ↔ r ∈ l.keys ∧ r ∉ others)
  mem_under : ∀ x, x ∈ g.under key ↔ x ∈ l.under key ∨ ∃ q ∈ others, x ∈ l.under q
  under_eq : ∀ r, r ≠ key → r ∉ others → g.under r = l.under r

theorem Gathers.move {others : List M.Reg} (h : Gathers l key others g) (hkey : q ≠ key)
    (hq : q ∉ others) : Gathers l key (others ++ [q]) (move key g q) where
  ordered := h.ordered.move
  mem_keys r hr := by
    rw [mem_keys_move hr, h.mem_keys r hr, List.mem_append, List.mem_singleton, not_or, and_assoc]
  mem_under x := by
    rw [h.ordered.under_move hkey, if_pos rfl, List.mem_append, h.mem_under x, h.under_eq q hkey hq,
      or_assoc]
    simp only [List.mem_append, List.mem_singleton, or_and_right, exists_or, exists_eq_left]
  under_eq r hr hmem := by
    rw [List.mem_append, List.mem_singleton, not_or] at hmem
    rw [h.ordered.under_move hkey, if_neg hr, if_neg hmem.2, h.under_eq r hr hmem.1]

theorem Gathers.foldl_move {others rest : List M.Reg} (h : Gathers l key others g)
    (hkey : key ∉ rest) (hnodup : (others ++ rest).Nodup) :
    Gathers l key (others ++ rest) (rest.foldl (Ledger.move key) g) := by
  induction rest generalizing others g with
  | nil => rwa [List.append_nil]
  | cons q rest ih =>
      rw [List.mem_cons, not_or] at hkey
      rw [← List.singleton_append, ← List.append_assoc] at hnodup ⊢
      -- Each register comes once, so what `q` has to move is what it had at first.
      have hq : q ∉ others := by
        intro hmem
        have hpair := (List.nodup_append.mp (List.nodup_append.mp hnodup).1).2.2
        exact hpair q hmem q (List.mem_singleton_self q) rfl
      exact ih (h.move (Ne.symm hkey.1) hq) hkey.2 hnodup

theorem Ordered.nodup_keys (h : l.Ordered) : l.keys.Nodup := by
  unfold keys
  rw [List.Nodup, List.pairwise_map]
  refine h.imp ?_
  intro a b hab heq
  rw [heq] at hab
  exact Machine.regBelow_irrefl b.1 hab

theorem mem_family : q ∈ l.family p ↔ q ∈ l.keys ∧ Machine.aliases q p = true :=
  List.mem_filter

/-- A family comes together under its widest register. -/
theorem Ordered.gathers_key (h : l.Ordered) (p : M.Reg) :
    Gathers l (l.key p).1 ((l.family p).filter fun q => decide (q ≠ (l.key p).1)) (l.key p).2 := by
  have hself : Gathers l (l.key p).1 [] l := ⟨h, by simp, by simp, by simp⟩
  refine hself.foldl_move ?_ ((h.nodup_keys.filter _).filter _)
  simp

section File

variable (l p x)

theorem contains_key : Machine.contains (l.key p).1 p = true :=
  (contains_widest (l.family p) p).1

theorem aliases_key : Machine.aliases (l.key p).1 p = true :=
  Machine.aliases_of_contains (contains_key l p)

variable {l p x}

theorem contains_key_of_mem (hq : q ∈ l.keys) (halias : Machine.aliases q p = true) :
    Machine.contains (l.key p).1 q = true :=
  (contains_widest (l.family p) p).2 q (mem_family.mpr ⟨hq, halias⟩) halias

theorem file_eq : l.file p x = add (l.key p).1 [x] (l.key p).2 := rfl

theorem Ordered.file (h : l.Ordered) : (l.file p x).Ordered :=
  (h.gathers_key p).ordered.add

/-- The registers with ranges after a write. -/
theorem Ordered.mem_keys_file (h : l.Ordered) :
    r ∈ (l.file p x).keys ↔ r = (l.key p).1 ∨ r ∈ l.keys ∧ Machine.aliases r p = false := by
  rw [file_eq, mem_keys_add]
  refine or_congr_right' fun hr => ?_
  rw [(h.gathers_key p).mem_keys r hr]
  refine and_congr_right fun hmem => ?_
  rw [List.mem_filter, mem_family, decide_eq_true_iff, and_iff_left hr, and_iff_right hmem,
    Bool.not_eq_true]

/-- The register of the family has all ranges of the family and the new one. -/
theorem Ordered.mem_under_key_file (h : l.Ordered) {y : LiveRange} :
    y ∈ (l.file p x).under (l.key p).1 ↔
      (∃ q ∈ l.keys, Machine.aliases q p = true ∧ y ∈ l.under q) ∨ y = x := by
  rw [file_eq, (h.gathers_key p).ordered.under_add, if_pos rfl, List.mem_append,
    List.mem_singleton, (h.gathers_key p).mem_under y]
  refine or_congr_left ⟨?_, ?_⟩
  · rintro (hy | ⟨q, hq, hy⟩)
    · exact ⟨_, mem_keys_of_mem_under hy, aliases_key l p, hy⟩
    · rcases mem_family.mp (List.mem_filter.mp hq).1 with ⟨hq, halias⟩
      exact ⟨q, hq, halias, hy⟩
  · rintro ⟨q, hq, halias, hy⟩
    by_cases hkey : q = (l.key p).1
    · exact Or.inl (hkey ▸ hy)
    · exact Or.inr ⟨q, List.mem_filter.mpr ⟨mem_family.mpr ⟨hq, halias⟩, by simpa using hkey⟩, hy⟩

/-- Other families are left alone. -/
theorem Ordered.under_file (h : l.Ordered) (hr : Machine.aliases r p = false) :
    (l.file p x).under r = l.under r := by
  have hne : r ≠ (l.key p).1 := by
    rintro rfl
    rw [aliases_key l p] at hr
    exact absurd hr (by simp)
  rw [file_eq, (h.gathers_key p).ordered.under_add, if_neg hne, (h.gathers_key p).under_eq r hne]
  intro hmem
  rw [(mem_family.mp (List.mem_filter.mp hmem).1).2] at hr
  exact absurd hr (by simp)

end File

/-- The ledger holds the given writes: one register of each family has the
    ranges of the whole family. -/
structure Files (l : Ledger M) (writes : List (M.Reg × LiveRange)) : Prop where
  ordered : l.Ordered
  apart : ∀ p ∈ l.keys, ∀ q ∈ l.keys, Machine.aliases p q = true → p = q
  written : ∀ q ∈ l.keys, q ∈ writes.map Prod.fst
  covered : ∀ p ∈ writes.map Prod.fst, ∃ q ∈ l.keys, Machine.contains q p = true
  mem_under : ∀ q ∈ l.keys, ∀ x,
    x ∈ l.under q ↔ ∃ p, (p, x) ∈ writes ∧ Machine.aliases p q = true

namespace Files

variable {writes : List (M.Reg × LiveRange)}

theorem nil : Files ([] : Ledger M) [] :=
  ⟨.nil, by simp [keys], by simp [keys], by simp, by simp [keys]⟩

theorem file (h : Files l writes) (p : M.Reg) (x : LiveRange) :
    Files (l.file p x) (writes ++ [(p, x)]) where
  ordered := h.ordered.file
  apart q hq r hr halias := by
    rcases h.ordered.mem_keys_file.mp hq with rfl | ⟨hq, hqp⟩
    · rcases h.ordered.mem_keys_file.mp hr with rfl | ⟨_, hrp⟩
      · rfl
      · -- No other register of the family of `p` is left.
        rw [Machine.aliases_trans (Machine.aliases_symm halias) (aliases_key l p)] at hrp
        exact absurd hrp (by simp)
    · rcases h.ordered.mem_keys_file.mp hr with rfl | ⟨hr, _⟩
      · rw [Machine.aliases_trans halias (aliases_key l p)] at hqp
        exact absurd hqp (by simp)
      · exact h.apart q hq r hr halias
  written q hq := by
    rw [List.map_append, List.mem_append]
    rcases h.ordered.mem_keys_file.mp hq with rfl | ⟨hq, _⟩
    · rcases widest_cases (l.family p) p with heq | hmem
      · exact Or.inr (List.mem_singleton.mpr heq)
      · exact Or.inl (h.written _ (mem_family.mp hmem).1)
    · exact Or.inl (h.written q hq)
  covered q hq := by
    have hkey : (l.key p).1 ∈ (l.file p x).keys := h.ordered.mem_keys_file.mpr (Or.inl rfl)
    rw [List.map_append, List.mem_append] at hq
    rcases hq with hq | hq
    · rcases h.covered q hq with ⟨r, hr, hcontains⟩
      -- The list of a family that is not written is where it was.
      cases hrp : Machine.aliases r p with
      | true => exact ⟨_, hkey, Machine.contains_trans (contains_key_of_mem hr hrp) hcontains⟩
      | false => exact ⟨r, h.ordered.mem_keys_file.mpr (Or.inr ⟨hr, hrp⟩), hcontains⟩
    · rw [List.mem_singleton.mp hq]
      exact ⟨_, hkey, contains_key l p⟩
  mem_under q hq y := by
    have hnew : ∀ r, (r, y) ∈ writes ++ [(p, x)] ↔ (r, y) ∈ writes ∨ r = p ∧ y = x := by simp
    simp only [hnew, or_and_right, exists_or]
    rcases h.ordered.mem_keys_file.mp hq with rfl | ⟨hq, hqp⟩
    · rw [h.ordered.mem_under_key_file]
      refine or_congr ⟨?_, ?_⟩ ⟨fun hy => ?_, fun ⟨_, ⟨_, hy⟩, _⟩ => hy⟩
      · rintro ⟨q, hq, hqp, hy⟩
        rcases (h.mem_under q hq y).mp hy with ⟨r, hr, hrq⟩
        exact ⟨r, hr, Machine.aliases_trans (Machine.aliases_trans hrq hqp)
          (Machine.aliases_symm (aliases_key l p))⟩
      · -- The register that has had the range is one of the family.
        rintro ⟨r, hr, hrp⟩
        rcases h.covered r (List.mem_map_of_mem (f := Prod.fst) hr) with ⟨q, hq, hcontains⟩
        have hqr := Machine.aliases_of_contains hcontains
        exact ⟨q, hq, Machine.aliases_trans (Machine.aliases_trans hqr hrp) (aliases_key l p),
          (h.mem_under q hq y).mpr ⟨r, hr, Machine.aliases_symm hqr⟩⟩
      · exact ⟨p, ⟨rfl, hy⟩, Machine.aliases_symm (aliases_key l p)⟩
    · rw [h.ordered.under_file hqp, h.mem_under q hq y, or_iff_left]
      rintro ⟨r, ⟨rfl, _⟩, hrq⟩
      rw [Machine.aliases_symm hrq] at hqp
      exact absurd hqp (by simp)

theorem foldl (h : Files l writes) (later : List (M.Reg × LiveRange)) :
    Files (later.foldl (fun l write => l.file write.1 write.2) l) (writes ++ later) := by
  induction later generalizing l writes with
  | nil => rwa [List.append_nil]
  | cons write later ih =>
      rw [← List.singleton_append, ← List.append_assoc]
      exact ih (h.file write.1 write.2)

/-- The register that has the ranges of a family contains all that was written of it. -/
theorem contains_of_aliases (h : Files l writes) (hp : p ∈ writes.map Prod.fst) (hq : q ∈ l.keys)
    (halias : Machine.aliases q p = true) : Machine.contains q p = true := by
  rcases h.covered p hp with ⟨r, hr, hcontains⟩
  have hrq := Machine.aliases_trans (Machine.aliases_of_contains hcontains)
    (Machine.aliases_symm halias)
  rwa [h.apart r hr q hq hrq] at hcontains

/-- The register that has the ranges of a family is its widest. -/
theorem widest_eq (h : Files l writes) {written : List M.Reg}
    (hwritten : ∀ q, q ∈ written ↔ q ∈ writes.map Prod.fst) (hp : p ∈ written) (hq : q ∈ l.keys)
    (halias : Machine.aliases q p = true) : widest written p = q := by
  have hwide := (contains_widest written p).2 q ((hwritten q).mpr (h.written q hq)) halias
  refine Machine.contains_antisymm hwide ?_
  exact h.contains_of_aliases ((hwritten _).mp (widest_mem hp)) hq
    (Machine.aliases_symm (Machine.aliases_of_contains hwide))

end Files

theorem Ordered.eq_map_keys (h : l.Ordered) : l = l.keys.map fun q => (q, l.under q) := by
  induction l with
  | nil => rfl
  | cons entry l ih =>
      obtain ⟨q, kept⟩ := entry
      have htail : l = (keys l).map fun r => (r, under ((q, kept) :: l) r) := by
        refine (ih (List.pairwise_cons.mp h).2).trans (List.map_congr_left fun r hr => ?_)
        rw [under_cons, if_neg]
        rintro rfl
        exact Machine.regBelow_irrefl r (h.below_of_mem hr)
      have hhead : under ((q, kept) :: l) q = kept := by rw [under_cons, if_pos rfl]
      rw [keys, List.map_cons, List.map_cons, hhead]
      exact congrArg _ htail

theorem map_fst_entries (l : Ledger M) :
    l.entries.map Prod.fst = l.keys.map Register.physical := by
  rw [entries, keys, List.map_map, List.map_map]
  rfl

theorem lookup_entries (l : Ledger M) (q : M.Reg) :
    l.entries.lookup (.physical q) = (l.lookup q).map (ascending LiveRange.before) := by
  induction l with
  | nil => rfl
  | cons entry l ih =>
      obtain ⟨p, kept⟩ := entry
      have hsame : ((Register.physical q : Register M) == .physical p) = (q == p) := by
        rw [Bool.eq_iff_iff, beq_iff_eq, beq_iff_eq, Register.physical.injEq]
      rw [entries, List.map_cons, List.lookup_cons, List.lookup_cons, hsame]
      split
      · rfl
      · exact ih

end Ledger

/-- What has been filed is a write in one of the blocks. -/
theorem mem_filings {scans : List (Scan M)} {p : M.Reg} {x : LiveRange} :
    (p, x) ∈ filings scans ↔ ∃ (b : Nat) (s : Scan M) (span : Span), scans[b]? = some s ∧
      (.physical p, span) ∈ s.writes ∧ span.inBlock b = x := by
  simp only [filings, Scan.filings, List.mem_flatMap, Prod.exists, List.mem_zipIdx_iff_getElem?,
    List.mem_filterMap, List.mem_reverse, Option.map_eq_some_iff, Prod.mk.injEq]
  constructor
  · rintro ⟨s, b, hs, r, span, hwrite, q, hq, rfl, hx⟩
    cases r with
    | virtual v => exact absurd hq (by simp [Register.physical?])
    | physical r =>
        obtain rfl := Option.some.inj hq
        exact ⟨b, s, span, hs, hwrite, hx⟩
  · rintro ⟨b, s, span, hs, hwrite, hx⟩
    exact ⟨s, b, hs, _, span, hwrite, p, rfl, rfl, hx⟩

/-- The ledger of some scans holds their writes. -/
theorem files_ledgerOf (scans : List (Scan M)) : (ledgerOf scans).Files (filings scans) := by
  have hall := Ledger.Files.nil.foldl (filings scans)
  rwa [List.nil_append] at hall

section Order

theorem Span.before_trans (a b c : Span) (hab : a.before b = true) (hbc : b.before c = true) :
    a.before c = true := by
  simp only [Span.before, Bool.or_eq_true, Bool.and_eq_true, decide_eq_true_eq] at *
  omega

theorem Span.before_apart (s t : Span) (hst : s.before t = false) (hts : t.before s = false) :
    s = t := by
  obtain ⟨a, e⟩ := s
  obtain ⟨a', e'⟩ := t
  simp only [Span.before, Bool.or_eq_false_iff, Bool.and_eq_false_iff,
    decide_eq_false_iff_not] at hst hts
  rw [Span.mk.injEq]
  omega

namespace LiveRange

theorem before_iff {a b : LiveRange} : a.before b = true ↔ a.block < b.block ∨
    a.block = b.block ∧ (a.start < b.start ∨ a.start = b.start ∧ a.stop < b.stop) := by
  simp [before]

theorem before_trans (a b c : LiveRange) (hab : a.before b = true) (hbc : b.before c = true) :
    a.before c = true := by
  rw [before_iff] at *
  omega

theorem before_apart (a b : LiveRange) (hab : a.before b = false) (hba : b.before a = false) :
    a = b := by
  obtain ⟨k, s, e⟩ := a
  obtain ⟨k', s', e'⟩ := b
  rw [← Bool.not_eq_true, before_iff] at hab hba
  simp only at hab hba
  rw [LiveRange.mk.injEq]
  omega

end LiveRange

/-- Spans in order are ranges of the block. -/
theorem mem_rangesIn {b : Nat} {spans : List Span} {range : LiveRange} :
    range ∈ rangesIn b spans ↔ ∃ span ∈ spans, span.inBlock b = range := by
  unfold rangesIn
  simp only [List.mem_map, mem_ascending Span.before_apart]

/-- The ranges of one block are listed in ascending order. -/
theorem pairwise_rangesIn (b : Nat) (spans : List Span) :
    (rangesIn b spans).Pairwise fun x y => x.before y = true := by
  unfold rangesIn
  rw [List.pairwise_map]
  refine (pairwise_ascending Span.before_trans spans).imp fun {s t} hst => ?_
  simp only [Span.before, Bool.or_eq_true, Bool.and_eq_true, decide_eq_true_eq] at hst
  exact LiveRange.before_iff.mpr (Or.inr ⟨rfl, hst⟩)

/-- Ranges that are listed block by block are in ascending order. -/
theorem pairwise_flatMap_rangesIn {α : Type} (items : List α) (spans : α × Nat → List Span) :
    (items.zipIdx.flatMap fun item => rangesIn item.2 (spans item)).Pairwise
      fun x y => x.before y = true := by
  rw [List.pairwise_flatMap]
  refine ⟨fun item _ => pairwise_rangesIn item.2 (spans item), ?_⟩
  -- Blocks are listed in the order of their labels, which their ranges carry.
  rw [List.pairwise_iff_getElem]
  intro j k hj hk hjk x hx y hy
  rcases mem_rangesIn.mp hx with ⟨_, _, rfl⟩
  rcases mem_rangesIn.mp hy with ⟨_, _, rfl⟩
  rw [List.getElem_zipIdx, List.getElem_zipIdx]
  refine LiveRange.before_iff.mpr (Or.inl ?_)
  simp only [Span.inBlock]
  omega

end Order

/-- The physical registers that the scans saw written. -/
def Function.writtenPhysicals (scans : List (Scan M)) : List M.Reg :=
  ascending Machine.regBelow
    (scans.flatMap fun s => s.writes.filterMap fun entry => entry.1.physical?)

/-- The ranges of all writes whose widest register is `key`. -/
def physicalRanges (scans : List (Scan M)) (written : List M.Reg) (key : M.Reg) : List LiveRange :=
  scans.zipIdx.flatMap fun (scan, b) =>
    rangesIn b (scan.writes.filterMap fun (r, span) =>
      match r with
      | .virtual _ => none
      | .physical p => if widest written p = key then some span else none)

section Description

variable {scans : List (Scan M)} {p key : M.Reg} {x : LiveRange}

theorem mem_writtenPhysicals_iff :
    p ∈ Function.writtenPhysicals scans ↔ p ∈ (filings scans).map Prod.fst := by
  unfold Function.writtenPhysicals
  rw [mem_ascending Machine.regBelow_apart, List.mem_flatMap, List.mem_map]
  constructor
  · rintro ⟨s, hs, hp⟩
    rcases List.mem_filterMap.mp hp with ⟨⟨r, span⟩, hwrite, hr⟩
    rcases List.getElem?_of_mem hs with ⟨b, hb⟩
    cases r with
    | virtual v => exact absurd hr (by simp [Register.physical?])
    | physical r =>
        obtain rfl := Option.some.inj hr
        exact ⟨(r, span.inBlock b), mem_filings.mpr ⟨b, s, span, hb, hwrite, rfl⟩, rfl⟩
  · rintro ⟨⟨p, x⟩, hwrite, rfl⟩
    rcases mem_filings.mp hwrite with ⟨b, s, span, hs, hwrite, _⟩
    exact ⟨s, List.mem_of_getElem? hs, List.mem_filterMap.mpr ⟨_, hwrite, rfl⟩⟩

theorem mem_physicalRanges_iff {written : List M.Reg} :
    x ∈ physicalRanges scans written key ↔
      ∃ p, (p, x) ∈ filings scans ∧ widest written p = key := by
  simp only [physicalRanges, List.mem_flatMap, Prod.exists, List.mem_zipIdx_iff_getElem?,
    mem_rangesIn, List.mem_filterMap, mem_filings]
  constructor
  · rintro ⟨s, b, hs, span, ⟨r, span', hwrite, hkey⟩, hx⟩
    cases r with
    | virtual v => exact absurd hkey (by simp)
    | physical p =>
        simp only [Option.ite_none_right_eq_some, Option.some.injEq] at hkey
        rcases hkey with ⟨hkey, rfl⟩
        exact ⟨p, ⟨b, s, span', hs, hwrite, hx⟩, hkey⟩
  · rintro ⟨p, ⟨b, s, span, hs, hwrite, hx⟩, hkey⟩
    exact ⟨s, b, hs, span, ⟨_, span, hwrite, by simp [hkey]⟩, hx⟩

/-- The registers with ranges are the widest ones that are written. -/
theorem keys_ledgerOf (scans : List (Scan M)) : (ledgerOf scans).keys =
    ascending Machine.regBelow ((Function.writtenPhysicals scans).map
      (widest (Function.writtenPhysicals scans))) := by
  have hfiles := files_ledgerOf scans
  have hasymm : Std.Asymm fun p q : M.Reg => Machine.regBelow p q = true :=
    ⟨fun p q hpq hqp => Machine.regBelow_irrefl p (Machine.regBelow_trans p q p hpq hqp)⟩
  have hkeys : (ledgerOf scans).keys.Pairwise fun p q => Machine.regBelow p q = true :=
    List.pairwise_map.mpr hfiles.ordered
  -- Both sides are in strict order, so they are equal if they have the same members.
  refine hkeys.eq_of_mem_iff (pairwise_ascending Machine.regBelow_trans _) fun q => ?_
  rw [mem_ascending Machine.regBelow_apart, List.mem_map]
  constructor
  · intro hq
    have hwritten := mem_writtenPhysicals_iff.mpr (hfiles.written q hq)
    exact ⟨q, hwritten, hfiles.widest_eq (fun _ => mem_writtenPhysicals_iff) hwritten hq
      (Machine.aliases_refl q)⟩
  · rintro ⟨p, hp, rfl⟩
    rcases hfiles.covered p (mem_writtenPhysicals_iff.mp hp) with ⟨q, hq, hcontains⟩
    rwa [hfiles.widest_eq (fun _ => mem_writtenPhysicals_iff) hp hq
      (Machine.aliases_of_contains hcontains)]

/-- A register has the ranges of the writes that it is the widest register for. -/
theorem ascending_under_ledgerOf (hkey : key ∈ (ledgerOf scans).keys) :
    ascending LiveRange.before ((ledgerOf scans).under key) =
      physicalRanges scans (Function.writtenPhysicals scans) key := by
  have hfiles := files_ledgerOf scans
  have hasymm : Std.Asymm fun x y : LiveRange => x.before y = true := by
    refine ⟨fun x y hxy hyx => ?_⟩
    rw [LiveRange.before_iff] at hxy hyx
    omega
  refine (pairwise_ascending LiveRange.before_trans _).eq_of_mem_iff
    (pairwise_flatMap_rangesIn scans _) fun x => ?_
  rw [mem_ascending LiveRange.before_apart, hfiles.mem_under key hkey]
  refine Iff.trans (exists_congr fun p => and_congr_right fun hp => ?_) mem_physicalRanges_iff.symm
  have hwritten := mem_writtenPhysicals_iff.mpr (List.mem_map_of_mem (f := Prod.fst) hp)
  constructor
  · intro halias
    exact hfiles.widest_eq (fun _ => mem_writtenPhysicals_iff) hwritten hkey
      (Machine.aliases_symm halias)
  · rintro rfl
    exact Machine.aliases_symm (Machine.aliases_of_contains (contains_widest _ p).1)

/-- The ledger, by the widest registers of the function instead of those so far. -/
theorem entries_ledgerOf (scans : List (Scan M)) : (ledgerOf scans).entries =
    (ascending Machine.regBelow ((Function.writtenPhysicals scans).map
      (widest (Function.writtenPhysicals scans)))).map fun key =>
        (.physical key, physicalRanges scans (Function.writtenPhysicals scans) key) := by
  rw [← keys_ledgerOf, Ledger.entries]
  nth_rewrite 1 [(files_ledgerOf scans).ordered.eq_map_keys]
  rw [List.map_map]
  refine List.map_congr_left fun key hkey => ?_
  exact congrArg (Prod.mk (Register.physical key)) (ascending_under_ledgerOf hkey)

end Description

end RegisterColoring
