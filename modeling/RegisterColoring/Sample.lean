import RegisterColoring.Supply

/-!
# Sample Programs

Three small functions with the values they compute: a chain of subtractions that
keeps all its constants alive at once, a loop that carries two values through
block inputs, and a branch whose two sides meet again. They run on any machine.

A sample draws its registers from a supply, in the order in which its code was
written down.

The code computes with words that wrap around. The values are computed with words as
well, but there an overflow is a failure, also of what is only halfway to the value.

## Main definitions

* `Sample.nestedSub`, `Sample.sum`, `Sample.diamond`: The functions.
* `Sample.word?`: A number as a word.
* `Sample.nestedSubValue?`, `Sample.sumValue?`, `Sample.diamondValue?`: What they return.
-/

namespace RegisterColoring

namespace Sample

variable {M : Machine}

/-- An instruction with one result. -/
def assign (op : Opcode) (v : VReg M) (uses : List (Operand M)) : Instr M :=
  ⟨.common op, [.virtual v], uses⟩

/-- An instruction without a result. -/
def perform (op : Opcode) (uses : List (Operand M)) : Instr M :=
  ⟨.common op, [], uses⟩

/-- The function `1 - (2 - (3 - ... (depth + 1)))`. All constants are loaded
    before the first subtraction. -/
def nestedSub (c : M.Class) (depth : Nat) (supply : Supply) : Function M × Supply :=
  let r (k : Nat) : VReg M := ⟨supply.regId k, c⟩
  let leaves := (List.range (depth + 1)).map fun k =>
    assign .copy (r k) [.imm (Int64.ofNat (k + 1))]
  let chain := (List.range depth).map fun j =>
    assign .sub (r (depth + 1 + j)) [.ofVReg (r (depth - 1 - j)), .ofVReg (r (depth + j))]
  (⟨"nested_sub", [⟨[], leaves ++ chain ++ [perform .ret [.ofVReg (r (2 * depth))]]⟩]⟩,
    supply.afterRegs (2 * depth + 1))

/-- The number as a signed word of 64 bits, if it is one. -/
def word? (x : Int) : Option Int64 :=
  if Int64.minValue.toInt ≤ x ∧ x ≤ Int64.maxValue.toInt then some (.ofInt x) else none

/-- The sum of two words, unless it overflows. -/
def add? (x y : Int64) : Option Int64 :=
  word? (x.toInt + y.toInt)

/-- The difference of two words, unless it overflows. -/
def sub? (x y : Int64) : Option Int64 :=
  word? (x.toInt - y.toInt)

/-- The product of two words, unless it overflows. -/
def mul? (x y : Int64) : Option Int64 :=
  word? (x.toInt * y.toInt)

/-- What `nestedSub` returns. -/
def nestedSubValue? (depth : Nat) : Option Int64 :=
  (List.range depth).foldr (fun k rest => rest.bind fun x => sub? (Int64.ofNat (k + 1)) x)
    (word? (depth + 1))

/-- The function `n + (n - 1) + ... + 1`, as a loop. -/
def sum (c : M.Class) (n : Int64) (supply : Supply) : Function M × Supply :=
  let r (k : Nat) : VReg M := ⟨supply.regId k, c⟩
  let entry : Block M :=
    ⟨[], [assign .copy (r 0) [.imm n], assign .copy (r 1) [.imm 0],
      perform .jmp [.block 1, .ofVReg (r 1), .ofVReg (r 0)]]⟩
  let body : Block M :=
    ⟨[r 2, r 3], [assign .add (r 4) [.ofVReg (r 2), .ofVReg (r 3)],
      assign .sub (r 5) [.ofVReg (r 3), .imm 1],
      perform .jnz [.ofVReg (r 5), .block 1, .ofVReg (r 4), .ofVReg (r 5)],
      perform .jmp [.block 2, .ofVReg (r 4)]]⟩
  let exit : Block M := ⟨[r 6], [perform .ret [.ofVReg (r 6)]]⟩
  (⟨"sum", [entry, body, exit]⟩, supply.afterRegs 7)

/-- What `sum` returns, as half of `n * (n + 1)`. It fails if the product overflows. -/
def sumValue? (n : Int64) : Option Int64 := do
  let next ← add? n 1
  let product ← mul? n next
  return product / 2

/-- The function that doubles `cond + 10` or, for a zero condition, `20`. -/
def diamond (c : M.Class) (cond : Int64) (supply : Supply) : Function M × Supply :=
  let r (k : Nat) : VReg M := ⟨supply.regId k, c⟩
  let entry : Block M :=
    ⟨[], [assign .copy (r 0) [.imm cond], perform .jnz [.ofVReg (r 0), .block 1, .block 2]]⟩
  let left : Block M :=
    ⟨[], [assign .add (r 1) [.ofVReg (r 0), .imm 10], perform .jmp [.block 3, .ofVReg (r 1)]]⟩
  let right : Block M := ⟨[], [perform .jmp [.block 3, .imm 20]]⟩
  let join : Block M :=
    ⟨[r 2], [assign .mul (r 3) [.ofVReg (r 2), .imm 2], perform .ret [.ofVReg (r 3)]]⟩
  (⟨"diamond", [entry, left, right, join]⟩, supply.afterRegs 4)

/-- What `diamond` returns. -/
def diamondValue? (cond : Int64) : Option Int64 :=
  if cond = 0 then some 40 else (add? cond 10).bind fun x => mul? x 2

end Sample

end RegisterColoring
