import FiniteAutomata.Automaton.Canonical
import FiniteAutomata.CommandLine.Arguments
import FiniteAutomata.Log.Steps

/-!
# What an invocation comes to

An expression is checked, read and turned into automata, and the words are run. The outcome holds
what each stage came to, up to the first failure.
-/

namespace FiniteAutomata.CommandLine

/-- The way in which an invocation fails. -/
inductive Failure where
  /-- The expression is not well-formed. -/
  | notWellformed (regex : String)
  /-- The expression cannot be read. -/
  | parsing (regex : String) (cause : Regex.Error)
  /-- No automaton can be built. -/
  | building (regex : String) (cause : Regex.Malformed)
  /-- A run branches. -/
  | running (word : String) (cause : Branching String)
  deriving DecidableEq

/-- The automata of an expression. -/
structure Automata where
  /-- The automaton built from the expression. -/
  nondeterministic : Automaton String
  /-- The determinized automaton, with canonical names if they were asked for. -/
  deterministic : Automaton String
  deriving DecidableEq

/-- What the stages came to. -/
structure Outcome where
  /-- The expression, once it has been read. -/
  regex : Option Regex := none
  /-- The automata, once they have been built. -/
  automata : Option Automata := none
  /-- The words that have been run, each with whether it was accepted. -/
  verdicts : List (String × Bool) := []
  /-- The failure that ended the work. -/
  failure : Option Failure := none
  deriving DecidableEq

/-- Runs words up to the first run that branches. -/
def runWords (A : Automaton String) : List String → Logged (List (String × Bool) × Option Failure)
  | [] => return ([], none)
  | word :: rest => do
    match ← A.acceptLogged word.toList with
    | .error place => return ([], some (.running word place))
    | .ok accepted =>
      let (verdicts, failure) ← runWords A rest
      return ((word, accepted) :: verdicts, failure)

namespace Invocation

/-- Whether the expression is one that the invocation lets pass. -/
def check (i : Invocation) : Logged Bool :=
  if .noCheck ∈ i.flags then return true else Regex.isWellformedLogged i.regex

/-- Builds the automata of an expression. -/
def build (i : Invocation) (r : Regex) : Logged (Except Regex.Malformed Automata) := do
  match (← r.constructLogged Regex.stateNamer).outcome with
  | .error e => return .error e
  | .ok nfa =>
    let dfa ← nfa.determinizeLogged
    return .ok ⟨nfa, if .canonical ∈ i.flags then dfa.renameCanonical 'q' else dfa⟩

/-- What the invocation comes to. -/
def outcome (i : Invocation) : Logged Outcome := do
  unless ← i.check do
    return { failure := some (.notWellformed i.regex) }
  match ← Regex.parseLogged i.regex with
  | .error e => return { failure := some (.parsing i.regex e) }
  | .ok r =>
    match ← i.build r with
    | .error e => return { regex := some r, failure := some (.building i.regex e) }
    | .ok automata =>
      let (verdicts, failure) ← runWords automata.deterministic i.words
      return ⟨some r, some automata, verdicts, failure⟩

end Invocation

end FiniteAutomata.CommandLine
