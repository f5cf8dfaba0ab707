import RegisterColoring.Machine

/-!
# The x86 Machine

General registers in three widths and the flags. The byte registers are part of
the word registers, which are part of the double words. Most arithmetic has two
addresses: the result takes the place of the first operand, which the opcode
says by tying the two together.

The double words whose value a function has to keep for its caller are in no
class, so they are never handed out.
-/

namespace RegisterColoring

/-- The registers of the x86 machine, in order. -/
inductive X86Reg where
  | eax
  | ebx
  | ecx
  | edx
  | edi
  | esi
  | ax
  | bx
  | cx
  | dx
  | di
  | si
  | al
  | bl
  | cl
  | dl
  | eflags
deriving DecidableEq, Repr

namespace X86Reg

def all : List X86Reg :=
  [eax, ebx, ecx, edx, edi, esi, ax, bx, cx, dx, di, si, al, bl, cl, dl, eflags]

def text : X86Reg → String
  | eax => "EAX"
  | ebx => "EBX"
  | ecx => "ECX"
  | edx => "EDX"
  | edi => "EDI"
  | esi => "ESI"
  | ax => "AX"
  | bx => "BX"
  | cx => "CX"
  | dx => "DX"
  | di => "DI"
  | si => "SI"
  | al => "AL"
  | bl => "BL"
  | cl => "CL"
  | dl => "DL"
  | eflags => "EFLAGS"

/-- The widest register that a register is part of. -/
def family : X86Reg → X86Reg
  | eax | ax | al => eax
  | ebx | bx | bl => ebx
  | ecx | cx | cl => ecx
  | edx | dx | dl => edx
  | edi | di => edi
  | esi | si => esi
  | eflags => eflags

def width : X86Reg → Nat
  | eax | ebx | ecx | edx | edi | esi | eflags => 32
  | ax | bx | cx | dx | di | si => 16
  | al | bl | cl | dl => 8

end X86Reg

/-- The classes of the x86 machine, in order. -/
inductive X86Class where
  | flags
  | gr8
  | gr16
  | gr32
deriving DecidableEq, Repr

namespace X86Class

def all : List X86Class :=
  [flags, gr8, gr16, gr32]

def text : X86Class → String
  | flags => "flags"
  | gr8 => "gr8"
  | gr16 => "gr16"
  | gr32 => "gr32"

def width : X86Class → Nat
  | flags => 1
  | gr8 => 8
  | gr16 => 16
  | gr32 => 32

def members : X86Class → List X86Reg
  | flags => [.eflags]
  | gr8 => [.al, .cl, .dl, .bl]
  | gr16 => [.ax, .cx, .dx, .si, .di, .bx]
  | gr32 => [.eax, .ecx, .edx]

end X86Class

/-- The opcodes that only the x86 machine has. -/
inductive X86Op where
  | add
  | sub
  | imul
  | cdq
  | idiv
  | shl
  | cmp
  | push
  | pop
deriving DecidableEq, Repr

namespace X86Op

def all : List X86Op :=
  [add, sub, imul, cdq, idiv, shl, cmp, push, pop]

def text : X86Op → String
  | add => "X86::ADD"
  | sub => "X86::SUB"
  | imul => "X86::IMUL"
  | cdq => "X86::CDQ"
  | idiv => "X86::IDIV"
  | shl => "X86::SHL"
  | cmp => "X86::CMP"
  | push => "X86::PUSH"
  | pop => "X86::POP"

/-- The two-address opcodes put their result where their first operand was. -/
def tied : X86Op → List (Nat × Nat)
  | add | sub | imul | shl => [(0, 0)]
  | cdq | idiv | cmp | push | pop => []

end X86Op

/-- The x86 machine. -/
@[reducible]
def x86 : Machine where
  name := "x86"
  Reg := X86Reg
  Class := X86Class
  Native := X86Op
  registers := X86Reg.all
  regName := X86Reg.text
  rank := X86Reg.ctorIdx
  family := X86Reg.family
  width := X86Reg.width
  className := X86Class.text
  classRank := X86Class.ctorIdx
  classWidth := X86Class.width
  members := X86Class.members
  natives := X86Op.all
  nativeName := X86Op.text
  tied := X86Op.tied
  mem_registers r := by cases r <;> decide
  rank_inj {r q} := by cases r <;> cases q <;> decide
  classRank_inj {c d} := by cases c <;> cases d <;> decide
  window_inj {r q} := by cases r <;> cases q <;> decide

end RegisterColoring
