import RegisterColoring.Code

/-!
# The Written Form of Code

A function is its name and its blocks between braces. A block is its label with
its inputs in parentheses and an indented line for each instruction, and an
instruction is its results, its opcode and its operands. The class of a virtual
register is not written.
-/

namespace RegisterColoring

variable {M : Machine}

def vregText (id : Nat) : String :=
  "%" ++ toString id

def blockText (b : Nat) : String :=
  "block" ++ toString b

def Slot.text (s : Slot) : String :=
  "(FRAME " ++ toString s.id ++ " " ++ toString s.size ++ ")"

def VReg.text (v : VReg M) : String :=
  vregText v.id

def Register.text : Register M → String
  | virtual v => v.text
  | physical p => M.regName p

/-- An offset with its sign; an offset of zero is left out. -/
def offsetText (offset : Int) : String :=
  if offset = 0 then ""
  else if 0 < offset then "+" ++ toString offset
  else toString offset

def Operand.text : Operand M → String
  | reg r => r.text
  | imm value => toString value.toInt
  | frame slot offset => slot.text ++ offsetText offset
  | global name => "@" ++ name
  | block b => blockText b

/-- The items with a comma and a blank between them. -/
def commaList (items : List String) : String :=
  ", ".intercalate items

def Instr.text (i : Instr M) : String :=
  (if i.defs.isEmpty then "" else commaList (i.defs.map Register.text) ++ " = ")
    ++ i.op.text
    ++ (if i.uses.isEmpty then "" else " " ++ commaList (i.uses.map Operand.text))

def Block.text (label : Nat) (b : Block M) : String :=
  blockText label ++ "(" ++ commaList (b.inputs.map VReg.text) ++ "):\n"
    ++ String.join (b.code.map fun i => "    " ++ i.text ++ "\n")

def Function.text (f : Function M) : String :=
  f.name ++ " \x7b\n" ++ String.join (f.blocks.zipIdx.map fun (b, label) => b.text label) ++ "\x7d"

end RegisterColoring
