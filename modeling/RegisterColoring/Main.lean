import RegisterColoring.CommandLine

/-!
# The Program

Run the command line and hand its output and exit code to the system.
-/

open RegisterColoring.CommandLine in
/-- Run the program. -/
def main (args : List String) : IO UInt32 := do
  let onTerminal ← (← IO.getStderr).isTty
  let exit := runCommand onTerminal args
  IO.print exit.stdout
  IO.eprint exit.stderr
  return UInt32.ofNat exit.code
