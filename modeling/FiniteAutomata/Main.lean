import FiniteAutomata.CommandLine.Report

/-!
# The program

Prints the result for the arguments. The log that was asked for goes to the standard error stream,
single steps left out.
-/

namespace FiniteAutomata

/-- Prints a result and its log, and gives back the exit status. -/
def printResult (result : Logged CommandLine.Result) : IO UInt32 := do
  for entry in result.log do
    if entry.level = .debug then IO.eprintln entry.text
  IO.print result.value.output
  IO.eprint result.value.errors
  return result.value.status.toUInt32

end FiniteAutomata

/-- Runs the program on its arguments. -/
def main (arguments : List String) : IO UInt32 :=
  FiniteAutomata.printResult (FiniteAutomata.CommandLine.result arguments)
