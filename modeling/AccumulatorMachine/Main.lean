import AccumulatorMachine.Demo

/-!
# The command line

Prints the transcript of the demonstration.  Whether it failed is told by the exit code.
-/

/-- Prints what the demonstration shows. -/
def main : IO UInt32 := do
  let t := AccumulatorMachine.Demo.transcript AccumulatorMachine.Demo.sample
  for line in t.output do
    IO.println line
  return t.exitCode
