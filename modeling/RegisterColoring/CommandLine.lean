import RegisterColoring.Allocation
import RegisterColoring.Decimal
import RegisterColoring.Machine.Flat
import RegisterColoring.Machine.X86
import RegisterColoring.Sample
import RegisterColoring.Terminal

/-!
# The Command Line

The program builds a sample, prints it, compiles it and prints the result with a
summary. Options choose the sample, the machine, the registers of the flat
machine and the number that the sample is built with; flags leave out the check
or ask for a trace. Traces belong in a log, and this program keeps none, so the
second flag changes nothing.

An option takes its value from the same argument (`-px`, `-p=x`, `--program=x`) or
from the next one. Arguments are read from the left and the first mistake ends
the run. A value in an argument of its own is *pending* until the next option or
flag begins or the arguments end, and only then is it looked at; an argument that
fits nowhere is therefore the first mistake even behind a pending value that is
wrong. Two dashes alone end the options, and nothing may follow them.

## Main definitions

* `Settings`: What a run is asked to do.
* `Pending`: An option whose value is still to be looked at.
* `Request.read`: What the arguments ask for.
* `UsageError`: Mistakes in the arguments.
* `runCommand`: Exit code and output of a run.
-/

namespace RegisterColoring

namespace CommandLine

/-- The samples that can be asked for. -/
inductive Program where
  | nestedSub
  | sum
  | diamond
deriving DecidableEq, Repr

/-- The machines that can be asked for. -/
inductive Arch where
  | generic
  | x86
deriving DecidableEq, Repr

/-- The options that take a value. -/
inductive OptionName where
  | program
  | target
  | registers
  | depth
deriving DecidableEq, Repr

/-- The options that take no value. -/
inductive FlagName where
  | noValidate
  | traceIr
deriving DecidableEq, Repr

namespace OptionName

def all : List OptionName :=
  [program, target, registers, depth]

def long : OptionName → String
  | program => "--program"
  | target => "--target"
  | registers => "--registers"
  | depth => "--depth"

def short : OptionName → String
  | program => "-p"
  | target => "-t"
  | registers => "-r"
  | depth => "-d"

/-- The option as messages show it, with the name of its value. -/
def shown : OptionName → String
  | program => "--program <PROGRAM>"
  | target => "--target <TARGET>"
  | registers => "--registers <REGISTERS>"
  | depth => "--depth <DEPTH>"

end OptionName

namespace FlagName

def all : List FlagName :=
  [noValidate, traceIr]

def long : FlagName → String
  | noValidate => "--no-validate"
  | traceIr => "--trace-ir"

end FlagName

/-- Mistakes in the arguments. -/
inductive UsageError where
  | invalidValue (option : OptionName) (value reason : String)
  | missingValue (option : OptionName)
  | repeated (shown : String)
  | unexpectedValue (flag : FlagName) (value : String)
  | unexpectedArgument (arg : String)
deriving DecidableEq, Repr

/-- A name or a value within a message. -/
def quoted (text : String) : String :=
  "'" ++ Terminal.bold text ++ "'"

namespace UsageError

/-- What is wrong, as a terminal shows it. -/
def message : UsageError → String
  | invalidValue option value reason =>
      "invalid value " ++ quoted value ++ " for " ++ quoted option.shown ++ ": " ++ reason
  | missingValue option =>
      "a value is required for " ++ quoted option.shown ++ " but none was supplied"
  | repeated shown => "the argument " ++ quoted shown ++ " cannot be used multiple times"
  | unexpectedValue flag value =>
      "unexpected value " ++ quoted value ++ " for " ++ quoted flag.long
        ++ " found; no more were expected"
  | unexpectedArgument arg => "unexpected argument " ++ quoted arg ++ " found"

/-- All that is written about a mistake. -/
def report (mistake : UsageError) : String :=
  Terminal.bold "error:" ++ " " ++ mistake.message
    ++ "\n\nFor more information, try " ++ quoted "--help" ++ ".\n"

end UsageError

/-- What a run is asked to do; an option that was not given is `none`. -/
structure Settings where
  program : Option Program := none
  arch : Option Arch := none
  registers : Option Nat := none
  depth : Option Nat := none
  flags : List FlagName := []

def readProgram (value : String) : Except String Program :=
  if value = "nested-sub" then .ok .nestedSub
  else if value = "sum" then .ok .sum
  else if value = "diamond" then .ok .diamond
  else .error ("unknown program " ++ value)

def readArch (value : String) : Except String Arch :=
  if value = "generic" then .ok .generic
  else if value = "x86" then .ok .x86
  else .error ("unknown target " ++ value)

/-- The greatest number of registers that can be asked for. -/
def maxRegisters : Nat :=
  255

/-- Read a 64-bit number first and see then whether it is a number of registers. -/
def readRegisters (value : String) : Except String Nat :=
  match Decimal.readInt (Nat.pow 2 63 - 1) value with
  | .error problem => .error problem.message
  | .ok n =>
      if 0 ≤ n ∧ n ≤ maxRegisters then .ok n.toNat
      else .error (toString n ++ " is not in 0..=" ++ toString maxRegisters)

def readDepth (value : String) : Except String Nat :=
  (Decimal.readNat (Nat.pow 2 64 - 1) value).mapError Decimal.Problem.message

/-- An argument, by its form. -/
inductive Arg where
  | flag (name : FlagName)
  | flagWith (name : FlagName) (value : String)
  | option (name : OptionName)
  | optionWith (name : OptionName) (value : String)
  | help
  /-- Two dashes alone, which end the options. -/
  | separator
  /-- Begins with a dash and names nothing known; only the name is kept. -/
  | unknown (name : String)
  /-- Begins with no dash, or is nothing but one. -/
  | word (text : String)
deriving DecidableEq, Repr

/-- The rest of a text after a start it has. -/
def after? (start text : String) : Option String :=
  if start.toList.isPrefixOf text.toList then
    some (String.ofList (text.toList.drop start.length))
  else none

/-- The value that a long name is followed by, behind an equals sign. -/
def longValue? (long text : String) : Option String :=
  after? (long ++ "=") text

/-- The value that a short name is directly followed by, behind an equals sign or not. -/
def shortValue? (short text : String) : Option String :=
  (after? (short ++ "=") text).or (after? short text)

/-- Read an argument as an option. -/
def OptionName.arg? (name : OptionName) (text : String) : Option Arg :=
  if text = name.long ∨ text = name.short then some (.option name)
  else ((longValue? name.long text).or (shortValue? name.short text)).map (.optionWith name)

/-- Read an argument as a flag. -/
def FlagName.arg? (name : FlagName) (text : String) : Option Arg :=
  if text = name.long then some (.flag name)
  else (longValue? name.long text).map (.flagWith name)

/-- Read an argument that is no known option or flag. A long name ends before an
    equals sign and a short one is a single character. -/
def Arg.ofOther (text : String) : Arg :=
  match text.toList with
  | ['-', '-'] => .separator
  | '-' :: '-' :: name =>
      if text = "--help" then .help
      else .unknown (String.ofList ('-' :: '-' :: name.takeWhile (· != '=')))
  | '-' :: c :: _ => if c = 'h' then .help else .unknown (String.ofList ['-', c])
  | _ => .word text

/-- Read an argument. -/
def Arg.ofText (text : String) : Arg :=
  ((OptionName.all.findSome? fun name => name.arg? text).or
    (FlagName.all.findSome? fun name => name.arg? text)).getD (.ofOther text)

/-- An option whose value is still to be looked at, or to come. -/
structure Pending where
  option : OptionName
  value : Option String
deriving DecidableEq, Repr

namespace Settings

/-- The option has a value already. -/
def has (s : Settings) : OptionName → Bool
  | .program => s.program.isSome
  | .target => s.arch.isSome
  | .registers => s.registers.isSome
  | .depth => s.depth.isSome

/-- The settings with the value of an option, or why it is none. -/
def withValue (s : Settings) (name : OptionName) (value : String) : Except String Settings :=
  match name with
  | .program => (readProgram value).map fun p => { s with program := some p }
  | .target => (readArch value).map fun a => { s with arch := some a }
  | .registers => (readRegisters value).map fun n => { s with registers := some n }
  | .depth => (readDepth value).map fun n => { s with depth := some n }

/-- Give an option its value. No option is given twice. -/
def set (s : Settings) (name : OptionName) (value : String) : Except UsageError Settings :=
  if s.has name then .error (.repeated name.shown)
  else (s.withValue name value).mapError (.invalidValue name value)

/-- Raise a flag. -/
def raise (s : Settings) (name : FlagName) : Except UsageError Settings :=
  if s.flags.contains name then .error (.repeated name.long)
  else .ok { s with flags := name :: s.flags }

/-- Look at the value of the pending option, if there is one. -/
def settle (s : Settings) : Option Pending → Except UsageError Settings
  | none => .ok s
  | some ⟨name, none⟩ => .error (.missingValue name)
  | some ⟨name, some value⟩ => s.set name value

end Settings

/-- What the arguments ask for. -/
inductive Request where
  | help
  | run (settings : Settings)

namespace Request

/-- Read the arguments from the left. Known options and flags settle what is
    pending before they take effect; arguments that fit nowhere do not wait. -/
def readArgs (s : Settings) (pending : Option Pending) : List String → Except UsageError Request
  | [] => (s.settle pending).map .run
  | text :: rest =>
      match Arg.ofText text, pending with
      | .flagWith name value, _ => .error (.unexpectedValue name value)
      | .unknown name, _ => .error (.unexpectedArgument name)
      | .word value, some ⟨name, none⟩ => readArgs s (some ⟨name, some value⟩) rest
      | .word value, _ => .error (.unexpectedArgument value)
      | .separator, _ =>
          match rest with
          | [] => (s.settle pending).map .run
          | extra :: _ => .error (.unexpectedArgument extra)
      | .help, _ => (s.settle pending).map fun _ => .help
      | .flag name, _ => do
          let next ← (← s.settle pending).raise name
          readArgs next none rest
      | .optionWith name value, _ => do
          let next ← (← s.settle pending).set name value
          readArgs next none rest
      | .option name, _ => do
          let next ← s.settle pending
          readArgs next (some ⟨name, none⟩) rest

/-- What a list of arguments asks for. -/
def read (args : List String) : Except UsageError Request :=
  readArgs {} none args

end Request

/-- What a run of the program leaves behind. -/
structure Exit where
  code : Nat
  stdout : String
  stderr : String
deriving DecidableEq, Repr

/-- The sample that was asked for, built with a number. -/
def Program.build {M : Machine} (p : Program) (c : M.Class) (depth : Nat) : Function M × Supply :=
  match p with
  | .nestedSub => Sample.nestedSub c depth {}
  | .sum => Sample.sum c (Int64.ofNat depth) {}
  | .diamond => Sample.diamond c (Int64.ofNat depth) {}

/-- The items between brackets. -/
def bracketed (items : List String) : String :=
  "[" ++ commaList items ++ "]"

/-- The lines that sum up an allocation. -/
def summaryText (s : Summary) : String :=
  "rounds: " ++ toString s.rounds ++ "\n"
    ++ "spilled: " ++ bracketed (s.spilled.map vregText) ++ "\n"
    ++ "frame slots: " ++ bracketed (s.slots.map Slot.text) ++ "\n"

/-- Print a function, compile it, and print what became of it. -/
def compileAndPrint {M : Machine} (options : Options) (built : Function M × Supply) : Exit :=
  let (f, supply) := built
  let shown := f.text ++ "\n\n"
  let report := f.compile options supply
  match report.result with
  | .ok summary =>
      ⟨0, shown ++ report.workspace.func.text ++ "\n\n" ++ summaryText summary, ""⟩
  | .error cause =>
      ⟨1, shown, "Error: failed to allocate " ++ f.name ++ "\n\nCaused by:\n    0: " ++ cause.message
        ++ "\n    1: " ++ cause.detail ++ "\n"⟩

/-- Do what the settings ask for. -/
def Settings.run (s : Settings) : Exit :=
  let program := s.program.getD .nestedSub
  let depth := s.depth.getD 3
  let options : Options := { check := !s.flags.contains .noValidate }
  match s.arch.getD .generic with
  | .generic =>
      compileAndPrint options (program.build (M := flat) ⟨s.registers.getD 2⟩ depth)
  | .x86 => compileAndPrint options (program.build (M := RegisterColoring.x86) .gr32 depth)

/-- The options and flags with their names. -/
def helpText : String :=
  "Options:\n"
    ++ String.join (OptionName.all.map fun name => "  " ++ name.short ++ ", " ++ name.shown ++ "\n")
    ++ String.join (FlagName.all.map fun name => "      " ++ name.long ++ "\n")
    ++ "  -h, --help\n"

/-- Run the program with the given arguments. Mistakes are written with control
    sequences only if a terminal will show them. -/
def runCommand (onTerminal : Bool) (args : List String) : Exit :=
  match Request.read args with
  | .ok .help => ⟨0, helpText, ""⟩
  | .ok (.run settings) => settings.run
  | .error mistake =>
      ⟨2, "", if onTerminal then mistake.report else Terminal.plain mistake.report⟩

end CommandLine

end RegisterColoring
