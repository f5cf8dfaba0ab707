import RegisterColoring.Code.Text

/-!
# Errors and Their Causes

A function can be malformed, it can be well formed and still ask for something
the allocator does not do, and spilling can run out of registers to spill.
A `Fault` is none of these: the caller broke a promise, by a function that
refers to what it does not have or by a graph node that does not exist.

## Main definitions

* `Malformed`, `Unsupported`, `Fault`, `Error`: The causes.
* `Error.detail`, `Error.message`: The text of an error, and the text with what
  kind of error it is.
-/

namespace RegisterColoring

/-- Ways in which a function is not in static single assignment form. -/
inductive Malformed where
  | duplicateDefinition (register block : Nat)
  | unterminatedBlock (block : Nat)
  | instructionAfterTerminator (block index : Nat)
  | argumentCount (block target expected found : Nat)
  | undefinedUse (register block : Nat)
  | unreachableBlock (block : Nat)
  | unknownBlock (block target : Nat)
deriving DecidableEq, Repr

/-- Well-formed code that the allocator does not handle. -/
inductive Unsupported where
  | spillWithInputs (register block : Nat)
  | conflictingTies (first second : String)
  | physicalLiveIn (register : String) (block : Nat)
  | unsuppliedInput (register block : Nat)
  | remainingInput (register block : Nat)
deriving DecidableEq, Repr

/-- Promises that the caller has to keep. -/
inductive Fault where
  /-- A block jumps to a block that does not exist. -/
  | missingTarget (block target : Nat)
  /-- No jump at the end of a block passes an argument for an input. -/
  | missingArgument (register block : Nat)
  /-- An interference graph has no such node. -/
  | missingNode (node : Nat)
deriving DecidableEq, Repr

/-- Why an allocation ends without a result. -/
inductive Error where
  | malformed (cause : Malformed)
  | unsupported (cause : Unsupported)
  /-- Coloring failed and no register is left to spill. -/
  | exhausted (function : String)
  | fault (cause : Fault)
deriving DecidableEq, Repr

def Malformed.message : Malformed → String
  | duplicateDefinition r b =>
      vregText r ++ " is defined more than once (again in " ++ blockText b ++ ")"
  | unterminatedBlock b => blockText b ++ " does not end with a terminator"
  | instructionAfterTerminator b i =>
      "instruction " ++ toString i ++ " of " ++ blockText b ++ " follows a terminator"
  | argumentCount b target expected found =>
      blockText b ++ " passes " ++ toString found ++ " arguments to " ++ blockText target
        ++ ", which takes " ++ toString expected
  | undefinedUse r b =>
      vregText r ++ " is used in " ++ blockText b ++ " without a definition on some path"
  | unreachableBlock b => blockText b ++ " is unreachable from the entry block"
  | unknownBlock b target =>
      blockText b ++ " branches to " ++ blockText target ++ ", which does not exist"

def Unsupported.message : Unsupported → String
  | spillWithInputs r b =>
      "cannot spill " ++ vregText r ++ ": " ++ blockText b ++ " still has phi inputs"
  | conflictingTies first second => first ++ " and " ++ second ++ " are tied together"
  | physicalLiveIn r b => "physical register " ++ r ++ " is live into " ++ blockText b
  | unsuppliedInput r b =>
      "input " ++ vregText r ++ " of " ++ blockText b ++ " is not supplied by any predecessor"
  | remainingInput r b =>
      blockText b ++ " still takes input " ++ vregText r ++ "; phis must be eliminated first"

def Fault.message : Fault → String
  | missingTarget b target => blockText b ++ " jumps to missing " ++ blockText target
  | missingArgument r b => "no jump passes input " ++ vregText r ++ " of " ++ blockText b
  | missingNode n => "no node " ++ toString n

namespace Error

/-- The text of the cause. -/
def detail : Error → String
  | malformed cause => cause.message
  | unsupported cause => cause.message
  | exhausted function => "no spill candidate left for \x60" ++ function ++ "\x60"
  | fault cause => cause.message

/-- The text of the cause, after the kind of error where there is more than one cause. -/
def message : Error → String
  | malformed cause => "malformed IR: " ++ cause.message
  | unsupported cause => "unsupported: " ++ cause.message
  | e => e.detail

end Error

end RegisterColoring
