import SheetFormula.CommandLine.Report

/-!
# The program

Reads formulas from the command line and shows their tokens, trees or display units.
-/

/-- Runs the program on its arguments and writes what it answers. -/
def main (arguments : List String) : IO UInt32 := do
  let report := SheetFormula.CommandLine.run arguments
  (← IO.getStdout).putStr report.output
  (← IO.getStderr).putStr report.errors
  return UInt32.ofNat report.code
