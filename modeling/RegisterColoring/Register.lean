import RegisterColoring.Machine

/-!
# Registers

Code names two kinds of registers: virtual ones, which the allocator has to
place, and the physical ones of the machine. A virtual register is an id
together with a class, and two with one id and different classes are different
registers.

Registers are ordered with the virtual ones first, by id and then class, and
the physical ones after them in the order of the machine.

## Main definitions

* `VReg`, `Register`: Virtual registers, and registers of either kind.
* `Register.before`: The order of registers.
* `Register.aliases`: Whether a write to one register changes another.
-/

namespace RegisterColoring

/-- A virtual register. -/
structure VReg (M : Machine) where
  id : Nat
  cls : M.Class
deriving DecidableEq

/-- A virtual register or a register of the machine. -/
inductive Register (M : Machine) where
  | virtual (v : VReg M)
  | physical (p : M.Reg)
deriving DecidableEq

variable {M : Machine}

namespace VReg

/-- Virtual registers are ordered by id, then by class. -/
def before (v w : VReg M) : Bool :=
  below v.id w.id || (decide (v.id = w.id) && Machine.classBelow v.cls w.cls)

theorem before_apart (v w : VReg M) (hvw : before v w = false) (hwv : before w v = false) :
    v = w := by
  obtain ⟨i, c⟩ := v
  obtain ⟨j, d⟩ := w
  simp only [before, Bool.or_eq_false_iff, Bool.and_eq_false_iff, decide_eq_false_iff_not] at hvw hwv
  have hid : i = j := below_apart i j hvw.1 hwv.1
  subst hid
  have hcls : c = d :=
    Machine.classBelow_apart c d (hvw.2.resolve_left (not_not_intro rfl))
      (hwv.2.resolve_left (not_not_intro rfl))
  rw [hcls]

theorem before_irrefl (v : VReg M) : v.before v = false := by
  simp [before, Machine.classBelow, below]

theorem before_trans (u v w : VReg M) (huv : u.before v = true) (hvw : v.before w = true) :
    u.before w = true := by
  simp only [before, below, Machine.classBelow, Bool.or_eq_true, Bool.and_eq_true,
    decide_eq_true_eq] at huv hvw ⊢
  omega

end VReg

namespace Register

def virtual? : Register M → Option (VReg M)
  | virtual v => some v
  | physical _ => none

def physical? : Register M → Option M.Reg
  | virtual _ => none
  | physical p => some p

def isVirtual : Register M → Bool
  | virtual _ => true
  | physical _ => false

/-- Virtual registers come before physical ones. -/
def before : Register M → Register M → Bool
  | virtual v, virtual w => v.before w
  | virtual _, physical _ => true
  | physical _, virtual _ => false
  | physical p, physical q => Machine.regBelow p q

/-- A write to one of the registers changes the other. Virtual registers have
    storage of their own. -/
def aliases : Register M → Register M → Bool
  | physical p, physical q => Machine.aliases p q
  | r, s => decide (r = s)

theorem before_apart (r s : Register M) (hrs : before r s = false) (hsr : before s r = false) :
    r = s := by
  cases r with
  | virtual v =>
      cases s with
      | virtual w => exact congrArg virtual (VReg.before_apart v w hrs hsr)
      | physical q => exact absurd hrs (by simp [before])
  | physical p =>
      cases s with
      | virtual w => exact absurd hsr (by simp [before])
      | physical q => exact congrArg physical (Machine.regBelow_apart p q hrs hsr)

theorem before_irrefl (r : Register M) : r.before r = false := by
  cases r with
  | virtual v => exact v.before_irrefl
  | physical p => exact Bool.eq_false_iff.mpr (Machine.regBelow_irrefl p)

theorem before_trans (r s t : Register M) (hrs : r.before s = true) (hst : s.before t = true) :
    r.before t = true := by
  cases r with
  | virtual u =>
      cases t with
      | physical q => rfl
      | virtual w =>
          cases s with
          | virtual v => exact VReg.before_trans u v w hrs hst
          | physical p => exact absurd hst (by simp [before])
  | physical p =>
      cases s with
      | virtual v => exact absurd hrs (by simp [before])
      | physical p' =>
          cases t with
          | virtual w => exact absurd hst (by simp [before])
          | physical q => exact Machine.regBelow_trans p p' q hrs hst

end Register

end RegisterColoring
