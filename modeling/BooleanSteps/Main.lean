import BooleanSteps.CommandLine.Run

/-!
# The program

Reads the arguments and, if it is needed, the input, and writes what the run emits.
-/

section

open BooleanSteps.CommandLine

/-- Runs the command line. -/
def main (arguments : List String) : IO UInt32 := do
  let stdout ← IO.getStdout
  let stderr ← IO.getStderr
  let options := Options.ofArguments arguments
  let input ← if readsInput options then (← IO.getStdin).readToEnd else pure ""
  let outcome := run options input
  for (emission, moment) in outcome.emissions.zipIdx do
    (if emission.isError then stderr else stdout).putStrLn (emission.text .bare true moment)
  stdout.flush
  match outcome.ending with
  | .success => pure ()
  | .failure e => stderr.putStrLn ("Error: " ++ e.message)
  | .refused => stderr.putStrLn "error: invalid arguments, try '--help'"
  return outcome.ending.code.toUInt32

end
