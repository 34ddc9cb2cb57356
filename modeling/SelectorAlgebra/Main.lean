import SelectorAlgebra.CommandLine.Run

/-!
# The command line program
-/

/-- Runs the command that the arguments ask for and writes what it gives. -/
def main (arguments : List String) : IO UInt32 := do
  let outcome := SelectorAlgebra.CommandLine.run arguments
  (← IO.getStderr).putStr outcome.stderr
  (← IO.getStdout).putStr outcome.stdout
  return outcome.code
