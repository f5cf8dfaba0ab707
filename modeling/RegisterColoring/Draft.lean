import RegisterColoring.Supply

/-!
# Functions Under Construction

A draft is a function that grows block by block. It starts with an empty entry
block, and instructions go to the end of the current block. The current block
may be switched to one that does not exist; writing there is refused, but a
register that was drawn for it stays used.
-/

namespace RegisterColoring

/-- A function under construction. -/
structure Draft (M : Machine) where
  func : Function M
  supply : Supply
  current : Nat

namespace Draft

variable {M : Machine}

/-- A function with an empty entry block. -/
def start (name : String) (supply : Supply) : Draft M :=
  ⟨⟨name, [⟨[], []⟩]⟩, supply, 0⟩

/-- Add an empty block at the end; its number is the old number of blocks. -/
def addBlock (d : Draft M) : Draft M :=
  { d with func.blocks := d.func.blocks ++ [⟨[], []⟩] }

/-- Make `b` the current block. -/
def switchTo (d : Draft M) (b : Nat) : Draft M :=
  { d with current := b }

/-- Draw a register. -/
def drawVReg (d : Draft M) (c : M.Class) : VReg M × Draft M :=
  (d.supply.vreg c, { d with supply := d.supply.afterRegs 1 })

/-- Change block `b`, if there is one. -/
def modifyBlock? (d : Draft M) (b : Nat) (change : Block M → Block M) : Option (Draft M) :=
  if b < d.func.size then some { d with func.blocks := d.func.blocks.modify b change } else none

/-- Put an instruction at the end of the current block. -/
def push? (d : Draft M) (i : Instr M) : Option (Draft M) :=
  d.modifyBlock? d.current fun block => { block with code := block.code ++ [i] }

/-- Give block `b` one more input. The register is drawn even if there is no such block. -/
def addInput (d : Draft M) (b : Nat) (c : M.Class) : Option (VReg M) × Draft M :=
  let (v, drawn) := d.drawVReg c
  match drawn.modifyBlock? b fun block => { block with inputs := block.inputs ++ [v] } with
  | some changed => (some v, changed)
  | none => (none, drawn)

/-- Put an instruction with a fresh result at the end of the current block. The
    register is drawn even if there is no such block. -/
def emit (d : Draft M) (op : Op M) (c : M.Class) (uses : List (Operand M)) :
    Option (VReg M) × Draft M :=
  let (v, drawn) := d.drawVReg c
  match drawn.push? ⟨op, [.virtual v], uses⟩ with
  | some changed => (some v, changed)
  | none => (none, drawn)

end Draft

end RegisterColoring
