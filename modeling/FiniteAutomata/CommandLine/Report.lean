import FiniteAutomata.Automaton.Text
import FiniteAutomata.CommandLine.Outcome

/-!
# What the program prints

The forms of the expression, the automata and the verdicts on the words are printed as far as the
work has come, and a failure is reported on the standard error stream with its cause.
-/

namespace FiniteAutomata.CommandLine

/-! ## Failures -/

/-- A message and what caused it; each line of the cause is indented. -/
def causedBy (context cause : String) : String :=
  let indented := cause.toList.flatMap fun c => if c = '\n' then "\n    ".toList else [c]
  "Error: " ++ context ++ "\n\nCaused by:\n    " ++ String.ofList indented ++ "\n"

/-- The report of a failure. -/
def Failure.report : Failure → String
  | notWellformed regex =>
    "Error: " ++ Text.quoted regex ++ " is not a valid regular expression\n"
  | parsing regex cause => causedBy ("parsing " ++ Text.quoted regex) cause.message
  | building regex cause => causedBy ("building NFA for " ++ Text.quoted regex) cause.message
  | running word cause => causedBy ("running " ++ Text.quoted word) cause.message

/-! ## Results -/

/-- The lines for the forms of an expression. -/
def formLines (r : Regex) : String :=
  "concatenated: " ++ Regex.Token.render r.concatenated ++ "\n" ++
    "postfix:      " ++ Regex.Token.render r.postfixTokens ++ "\n"

/-- The lines for the automata, with the graph of the deterministic one if it was asked for. -/
def Automata.lines (dot : Bool) (a : Automata) : String :=
  let dfa := a.deterministic
  "nfa:          " ++ a.nondeterministic.text ++ "\n" ++ "dfa:          " ++ dfa.text ++ "\n" ++
    String.join (dfa.transitions.toList.map fun t => "  " ++ t.text ++ "\n") ++
    if dot then dfa.dot ++ "\n" else ""

/-- The line for a word. -/
def verdictLine (verdict : String × Bool) : String :=
  Text.quoted verdict.1 ++ if verdict.2 then ": accepted\n" else ": rejected\n"

/-- All that is printed on an outcome. -/
def Outcome.output (dot : Bool) (o : Outcome) : String :=
  o.regex.elim "" formLines ++ o.automata.elim "" (Automata.lines dot) ++
    String.join (o.verdicts.map verdictLine)

/-- The exit status and the texts on the two output streams. -/
structure Result where
  /-- Zero for success, one for a failure, two for misuse. -/
  status : Nat
  /-- The text on the standard output. -/
  output : String
  /-- The text on the standard error stream, log aside. -/
  errors : String
  deriving DecidableEq

/-- How the program is used. -/
def usage : String :=
  "usage: [--dot] [--canonical] [--no-check] [-d | --debug] [--] REGEX [WORDS]\n"

/-- The result of an invocation with a given outcome. -/
def Invocation.result (i : Invocation) (o : Outcome) : Result :=
  let output := o.output (.dot ∈ i.flags)
  match o.failure with
  | none => ⟨0, output, ""⟩
  | some failure => ⟨1, output, failure.report⟩

/-- The result of the program for its arguments, with the log if the arguments ask for it. -/
def result (arguments : List String) : Logged Result :=
  match Invocation.ofArguments? arguments with
  | none => return ⟨2, "", usage⟩
  | some i =>
    let run := i.outcome
    ⟨i.result run.value, if .debug ∈ i.flags then run.log else []⟩

end FiniteAutomata.CommandLine
