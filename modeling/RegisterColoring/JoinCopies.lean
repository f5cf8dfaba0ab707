import RegisterColoring.Error
import RegisterColoring.Supply

/-!
# Block Inputs as Copies

Machines have no block inputs, so every input becomes a copy. An input gets a
staging register that all jumps to its block share. A block copies its arguments
into the staging registers before its trailing terminators, and the target
starts by copying the staging registers into its inputs. Going through the
staging registers lets a jump permute the inputs of its target.

If the terminators of one block refer to the same target more than once, the
copies for the different references would overwrite each other. Each such
reference then gets a block of its own, added at the end of the function, which
holds the copies and jumps on.

Staging registers are handed out in the order in which jumps first need them.

## Main definitions

* `Function.staging`: The inputs that jumps supply, with their staging registers.
* `lowerBranch`: What becomes of one block reference.
* `Function.lowerInputs`: Replace all inputs.
-/

namespace RegisterColoring

variable {M : Machine}

/-- Copy an operand into a virtual register. -/
def copyTo (v : VReg M) (operand : Operand M) : Instr M :=
  ⟨.common .copy, [.virtual v], [operand]⟩

/-- Jump to a block without arguments. -/
def jumpTo (target : Nat) : Instr M :=
  ⟨.common .jmp, [], [.block target]⟩

/-- The first register of each id, in order. -/
def distinctIds (seen : List Nat) : List (VReg M) → List (VReg M)
  | [] => []
  | v :: rest =>
      if seen.contains v.id then distinctIds seen rest else v :: distinctIds (v.id :: seen) rest

/-- Staging registers by the ids of the inputs they stand in for. -/
abbrev Staging (M : Machine) := List (Nat × VReg M)

namespace Function

/-- The blocks that some terminator refers to. -/
def suppliedBlocks (f : Function M) : List Nat :=
  (f.instructions.filter Instr.isTerminator).flatMap Instr.references

/-- The first input of a block that no terminator refers to. -/
def unsuppliedInput? (f : Function M) : Option Unsupported :=
  let supplied := f.suppliedBlocks
  f.blocks.zipIdx.findSome? fun (b, label) =>
    match b.inputs with
    | [] => none
    | v :: _ => if supplied.contains label then none else some (.unsuppliedInput v.id label)

/-- The inputs that the jumps at the ends of blocks supply, in the order of the jumps. -/
def suppliedInputs (f : Function M) : List (VReg M) :=
  f.blocks.flatMap fun b => b.run.flatMap fun i => i.branches.flatMap fun branch =>
    (f.inputsOf branch.target).take branch.args.length

/-- The staging register of every input that a jump supplies. Inputs of one id
    share it. -/
def staging (f : Function M) (supply : Supply) : Staging M :=
  (distinctIds [] f.suppliedInputs).zipIdx.map fun (v, k) => (v.id, ⟨supply.regId k, v.cls⟩)

/-- A jump at the end of a block to a block that does not exist. -/
def missingTarget? (f : Function M) : Option Fault :=
  f.blocks.zipIdx.findSome? fun (b, label) =>
    ((b.run.flatMap Instr.references).find? fun target => !below target f.size).map
      (.missingTarget label)

/-- An input without a staging register. -/
def missingArgument? (f : Function M) (staging : Staging M) : Option Fault :=
  f.blocks.zipIdx.findSome? fun (b, label) =>
    (b.inputs.find? fun v => (staging.lookup v.id).isNone).map fun v => .missingArgument v.id label

end Function

/-- Copies of arguments into the staging registers of the inputs they are for. -/
def stageCopies (staging : Staging M) (inputs : List (VReg M)) (args : List (Operand M)) :
    List (Instr M) :=
  (inputs.zip args).filterMap fun (v, arg) => (staging.lookup v.id).map fun s => copyTo s arg

/-- Copies of the staging registers into the inputs. -/
def fetchCopies (staging : Staging M) (inputs : List (VReg M)) : List (Instr M) :=
  inputs.filterMap fun v => (staging.lookup v.id).map fun s => copyTo v (.ofVReg s)

/-- What becomes of branches: the operands that replace them, copies for the
    block itself, and blocks to add. -/
structure Lowered (M : Machine) where
  uses : List (Operand M)
  copies : List (Instr M)
  edges : List (Block M)

/-- Lower one branch. A target without inputs keeps its operands. A contested
    target is reached through a new block, whose number is `next`. -/
def lowerBranch (f : Function M) (staging : Staging M) (contested : Nat → Bool) (next : Nat)
    (branch : Branch M) : Lowered M :=
  let inputs := f.inputsOf branch.target
  let copies := stageCopies staging inputs branch.args
  if inputs.isEmpty then ⟨.block branch.target :: branch.args, [], []⟩
  else if contested branch.target then
    ⟨[.block next], [], [⟨[], copies ++ [jumpTo branch.target]⟩]⟩
  else ⟨[.block branch.target], copies, []⟩

/-- Lower the branches of one instruction. -/
def lowerBranches (f : Function M) (staging : Staging M) (contested : Nat → Bool) (next : Nat) :
    List (Branch M) → Lowered M
  | [] => ⟨[], [], []⟩
  | branch :: rest =>
      let here := lowerBranch f staging contested next branch
      let others := lowerBranches f staging contested (next + here.edges.length) rest
      ⟨here.uses ++ others.uses, here.copies ++ others.copies, here.edges ++ others.edges⟩

/-- Terminators with their branches lowered, and what that adds. -/
structure LoweredRun (M : Machine) where
  run : List (Instr M)
  copies : List (Instr M)
  edges : List (Block M)

/-- Lower the branches of the trailing terminators of a block. -/
def lowerRun (f : Function M) (staging : Staging M) (contested : Nat → Bool) (next : Nat) :
    List (Instr M) → LoweredRun M
  | [] => ⟨[], [], []⟩
  | i :: rest =>
      let here := lowerBranches f staging contested next i.branches
      let others := lowerRun f staging contested (next + here.edges.length) rest
      ⟨{ i with uses := i.leading ++ here.uses } :: others.run, here.copies ++ others.copies,
        here.edges ++ others.edges⟩

/-- The trailing terminators refer to the target more than once. -/
def Block.contests (b : Block M) (target : Nat) : Bool :=
  below 1 ((b.run.flatMap Instr.references).count target)

/-- Lower blocks, of which the first added one gets number `next`, into the
    changed blocks and the added ones. -/
def lowerBlocks (f : Function M) (staging : Staging M) (next : Nat) :
    List (Block M) → List (Block M) × List (Block M)
  | [] => ([], [])
  | b :: rest =>
      let here := lowerRun f staging b.contests next b.run
      let (blocks, edges) := lowerBlocks f staging (next + here.edges.length) rest
      (⟨[], fetchCopies staging b.inputs ++ b.body ++ here.copies ++ here.run⟩ :: blocks,
        here.edges ++ edges)

namespace Function

/-- The function with its inputs replaced by copies through staging registers. -/
def withCopies (f : Function M) (staging : Staging M) : Function M :=
  let (blocks, edges) := lowerBlocks f staging f.size f.blocks
  { f with blocks := blocks ++ edges }

/-- Replace block inputs by copies. -/
def lowerInputs (f : Function M) (supply : Supply) : Except Error (Function M × Supply) :=
  let staging := f.staging supply
  match f.unsuppliedInput? with
  | some cause => .error (.unsupported cause)
  | none =>
      match f.missingTarget?.or (f.missingArgument? staging) with
      | some cause => .error (.fault cause)
      | none => .ok (f.withCopies staging, supply.afterRegs staging.length)

end Function

end RegisterColoring
