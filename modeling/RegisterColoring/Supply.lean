import RegisterColoring.Code

/-!
# Fresh Names

Virtual registers and frame slots get consecutive ids from a supply that all
functions of a program share. Ids are numbers below `2 ^ 32`; after the last
one the counter is back at zero, and nothing checks whether an id is in use.
-/

namespace RegisterColoring

/-- How many virtual registers and frame slots have been handed out. -/
structure Supply where
  registers : Nat := 0
  slots : Nat := 0
deriving DecidableEq, Repr

namespace Supply

/-- The number of different ids. -/
def capacity : Nat :=
  Nat.pow 2 32

variable {M : Machine}

/-- The id of the register that is handed out after `k` others. -/
def regId (s : Supply) (k : Nat) : Nat :=
  (s.registers + k) % capacity

/-- The supply after `k` more registers. -/
def afterRegs (s : Supply) (k : Nat) : Supply :=
  { s with registers := s.regId k }

/-- The next register, in class `c`. -/
def vreg (s : Supply) (c : M.Class) : VReg M :=
  ⟨s.regId 0, c⟩

/-- The next frame slot, of the given size. -/
def slot (s : Supply) (size : Nat) : Slot :=
  ⟨s.slots % capacity, size⟩

/-- The supply after one more slot. -/
def afterSlot (s : Supply) : Supply :=
  { s with slots := (s.slots + 1) % capacity }

/-- The next frame slot and the supply after it. There are no slots of size 0. -/
def newSlot? (s : Supply) (size : Nat) : Option (Slot × Supply) :=
  if size = 0 then none else some (s.slot size, s.afterSlot)

end Supply

end RegisterColoring
