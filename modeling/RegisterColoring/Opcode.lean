/-!
# Shared Opcodes

Arithmetic, calls, control transfer and memory access have one spelling on all
machines. Three of them end a block: a jump, a conditional jump and a return.
The allocator itself only writes copies, jumps, saves and reloads.

## Main definitions

* `Opcode`: The shared opcodes.
* `Opcode.text`: How an opcode is written.
* `Opcode.isTerminator`: Whether it may end a block.
-/

namespace RegisterColoring

/-- The opcodes that every machine understands. -/
inductive Opcode where
  | copy
  | add
  | sub
  | mul
  | div
  | rem
  | shl
  | sra
  | srl
  | call
  | jmp
  | jnz
  | ret
  | load
  | store
  | save
  | reload
deriving DecidableEq, Repr

namespace Opcode

/-- Every shared opcode once. -/
def all : List Opcode :=
  [copy, add, sub, mul, div, rem, shl, sra, srl, call, jmp, jnz, ret, load, store, save, reload]

def text : Opcode → String
  | copy => "COPY"
  | add => "ADD"
  | sub => "SUB"
  | mul => "MUL"
  | div => "DIV"
  | rem => "REM"
  | shl => "SHL"
  | sra => "SRA"
  | srl => "SRL"
  | call => "CALL"
  | jmp => "JMP"
  | jnz => "JNZ"
  | ret => "RET"
  | load => "LOAD"
  | store => "STORE"
  | save => "SAVE"
  | reload => "RELOAD"

/-- Jumps and returns end a block; nothing else does. -/
def isTerminator : Opcode → Bool
  | jmp | jnz | ret => true
  | _ => false

end Opcode

end RegisterColoring
