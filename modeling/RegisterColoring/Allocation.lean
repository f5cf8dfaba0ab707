import RegisterColoring.JoinCopies
import RegisterColoring.Spilling
import RegisterColoring.WellFormed

/-!
# Allocation

Allocation gives every virtual register of a function a physical one. It
analyses and colors, and as long as coloring is stuck it spills one register and
starts again. A register is spilled only once and reloaded registers are never
spilled, so there are at most as many spills as the function has ids to begin
with: that number is the budget of `allocateRounds`, and it does not run out.

A compilation checks a function, replaces its block inputs and allocates. It
works on a copy: the function changes only if all steps succeed, but ids drawn
on the way stay used.

## Main definitions

* `Function.place`: Replace virtual registers by the registers of their nodes.
* `Function.allocate`: Allocate the registers of a function.
* `Function.compile`: Check, replace inputs and allocate.
-/

namespace RegisterColoring

variable {M : Machine}

/-- What an allocation did. -/
structure Summary where
  /-- How often coloring was tried; 0 if there was nothing to allocate. -/
  rounds : Nat := 0
  /-- The ids of the spilled registers, in order. -/
  spilled : List Nat := []
  /-- The frame slots of the spilled registers. -/
  slots : List Slot := []
deriving DecidableEq, Repr

/-- The register that a node assignment gives to `r`; without one it stays. -/
def Assignment.place (colors : Assignment M) (g : Interference M) (r : Register M) : Register M :=
  match r with
  | .physical _ => r
  | .virtual _ =>
      match (g.node? r).bind fun n => colors.lookup n with
      | some p => .physical p
      | none => r

/-- Replace every register of an instruction. -/
def Instr.mapRegs (f : Register M → Register M) (i : Instr M) : Instr M :=
  { i with
    defs := i.defs.map f
    uses := i.uses.map fun u =>
      match u with
      | .reg r => .reg (f r)
      | u => u }

/-- A function and the supply that its fresh names come from. -/
structure Workspace (M : Machine) where
  func : Function M
  supply : Supply

/-- A result with the state that it leaves. -/
structure Outcome (M : Machine) where
  result : Except Error Summary
  workspace : Workspace M

namespace Function

/-- Replace every virtual register by the register of its node. -/
def place (f : Function M) (g : Interference M) (colors : Assignment M) : Function M :=
  { f with
    blocks := f.blocks.map fun b =>
      { b with code := b.code.map (Instr.mapRegs (colors.place g)) } }

/-- The ids of all virtual registers, each once. -/
def vregIds (f : Function M) : List Nat :=
  ascending below ((f.registers.filterMap Register.virtual?).map VReg.id)

/-- The first input of a function. -/
def remainingInput? (f : Function M) : Option Unsupported :=
  f.blocks.zipIdx.findSome? fun (b, label) =>
    b.inputs.head?.map fun v => .remainingInput v.id label

end Function

/-- What a round finds: the allocated function, or a register to spill. -/
inductive Round (M : Machine) where
  | placed (func : Function M)
  | mustSpill (v : VReg M)

/-- Analyse and color once. Registers with the given ids are not spilled. -/
def Function.round (f : Function M) (excluded : List Nat) : Except Error (Round M) :=
  match f.liveness with
  | .error cause => .error (.unsupported cause)
  | .ok l =>
      let g := l.interference
      match g.color with
      | .error cause => .error (.unsupported cause)
      | .ok (.complete colors) => .ok (.placed (f.place g colors))
      | .ok (.stuck blames) => (selectSpill f.name g l blames excluded).map .mustSpill

/-- Color and spill until every register is placed, with at most `budget` spills.
    Registers whose ids are excluded are not spilled. -/
def allocateRounds (w : Workspace M) (excluded : List Nat) (done : Summary) (budget : Nat) :
    Outcome M :=
  match w.func.round excluded with
  | .error cause => ⟨.error cause, w⟩
  | .ok (.placed func) => ⟨.ok { done with rounds := done.rounds + 1 }, { w with func }⟩
  | .ok (.mustSpill v) =>
      match budget with
      | 0 => ⟨.error (.exhausted w.func.name), w⟩
      | budget + 1 =>
          match w.func.spill v w.supply with
          | .error cause => ⟨.error (.unsupported cause), w⟩
          | .ok s =>
              allocateRounds ⟨s.func, s.supply⟩ (v.id :: (s.reloads ++ excluded))
                { rounds := done.rounds + 1
                  spilled := done.spilled ++ [v.id]
                  slots := done.slots ++ [s.slot] }
                budget

/-- Allocate the registers of a function without block inputs. If an error ends
    it, the function keeps the spills made so far. -/
def Function.allocate (f : Function M) (supply : Supply) : Outcome M :=
  if f.hasVirtual then
    match f.remainingInput? with
    | some cause => ⟨.error (.unsupported cause), ⟨f, supply⟩⟩
    | none => allocateRounds ⟨f, supply⟩ [] {} f.vregIds.length
  else ⟨.ok {}, ⟨f, supply⟩⟩

/-- Which steps a compilation takes. -/
structure Options where
  check : Bool := true
  lowerInputs : Bool := true
deriving DecidableEq, Repr

/-- A result, the state it leaves, and the function after each step that was reached. -/
structure Report (M : Machine) where
  result : Except Error Summary
  workspace : Workspace M
  stages : List (String × Function M)

namespace Function

/-- Replace the inputs, if that is asked for. -/
def lowerIf (f : Function M) (options : Options) (supply : Supply) :
    Except Error (Function M × Supply) :=
  if options.lowerInputs then f.lowerInputs supply else .ok (f, supply)

/-- Check the function, if that is asked for. -/
def checkIf (f : Function M) (options : Options) : Except Error Unit :=
  if options.check then f.check.mapError .malformed else .ok ()

/-- Check, replace inputs and allocate. -/
def compile (f : Function M) (options : Options) (supply : Supply) : Report M :=
  let input := [("input", f)]
  match f.checkIf options with
  | .error cause => ⟨.error cause, ⟨f, supply⟩, input⟩
  | .ok () =>
      match f.lowerIf options supply with
      | .error cause => ⟨.error cause, ⟨f, supply⟩, input⟩
      | .ok (lowered, drawn) =>
          let stages := input ++
            if options.lowerInputs then [("after phi elimination", lowered)] else []
          let outcome := lowered.allocate drawn
          match outcome.result with
          | .error cause => ⟨.error cause, ⟨f, outcome.workspace.supply⟩, stages⟩
          | .ok summary =>
              ⟨.ok summary, outcome.workspace, stages ++ [("allocated", outcome.workspace.func)]⟩

end Function

/-- The lines of a report: what is compiled, and the function after each step. -/
def Report.trace (r : Report M) (f : Function M) : List String :=
  (f.name ++ ": allocating for " ++ M.name)
    :: r.stages.map fun (stage, func) => stage ++ ":\n" ++ func.text

end RegisterColoring
