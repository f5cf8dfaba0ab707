import RegisterColoring.Machine

/-!
# A Flat Register File

Sixteen 64-bit registers, none of which is part of another, and no opcodes
beside the shared ones. A class names how many of the registers, counted from
the first, it may use, so any register pressure can be dialled in.
-/

namespace RegisterColoring

/-- The class of values kept in the first `count` registers. -/
structure FlatClass where
  count : Nat
deriving DecidableEq, Repr

/-- The machine with a flat register file. -/
@[reducible]
def flat : Machine where
  name := "generic"
  Reg := Fin 16
  Class := FlatClass
  Native := Empty
  registers := List.finRange 16
  regName r := "r" ++ toString r.val
  rank r := r.val
  family r := r
  width _ := 64
  className c := "gpr" ++ toString c.count
  classRank c := c.count
  classWidth _ := 64
  members c := (List.finRange 16).take c.count
  natives := []
  nativeName o := nomatch o
  tied o := nomatch o
  mem_registers r := List.mem_finRange r
  rank_inj h := Fin.ext h
  classRank_inj {c d} h := by
    cases c
    cases d
    exact congrArg FlatClass.mk h
  window_inj h _ := h

end RegisterColoring
