import TimeSignal.Command.Run

/-!
# The program

The arguments are run, and the outcome is written to the output streams.
-/

/-- Runs the arguments and writes the outcome. -/
def main (arguments : List String) : IO UInt32 := do
  let outcome := TimeSignal.Command.run arguments
  IO.print outcome.output
  IO.eprint outcome.report
  pure outcome.exitCode.toUInt32
