import FiniteAutomata.Automaton.Determinize
import FiniteAutomata.Regex.Basic

/-!
# Well-formed expressions

Whether a text is an expression over the letters from a to z, with parentheses in two levels at
most, is decided by an automaton. At each depth it is in one of two states, according to whether
an operand has to follow or has just been read.
-/

namespace FiniteAutomata.Regex

open Std

/-- How deep parentheses may be nested. -/
def maxDepth : Nat := 2

/-- The letters that a well-formed expression is written with. -/
def plainLetters : List Char := "abcdefghijklmnopqrstuvwxyz".toList

/-- The state at a depth where an operand has to follow. -/
def expecting (depth : Nat) : String := Namer.nameOf 'S' (2 * depth)

/-- The state at a depth where an operand has just been read. -/
def following (depth : Nat) : String := Namer.nameOf 'S' (2 * depth + 1)

/-- The transitions that stay at a depth. -/
def levelTransitions (depth : Nat) : List (Transition String) :=
  plainLetters.map (fun c => ⟨expecting depth, .symbol c, following depth⟩) ++
  plainLetters.map (Transition.selfLoop (following depth)) ++
  [.selfLoop (following depth) '*', .selfLoop (following depth) '+',
    ⟨following depth, .symbol '|', expecting depth⟩]

/-- The transitions between a depth and the next one. A group that is closed is an operand of the
outer depth. -/
def groupTransitions (depth : Nat) : List (Transition String) :=
  [⟨expecting depth, .symbol '(', expecting (depth + 1)⟩,
    ⟨following depth, .symbol '(', expecting (depth + 1)⟩,
    ⟨following (depth + 1), .symbol ')', following depth⟩]

/-- The automaton of the depths. -/
def depthAutomaton : Automaton String :=
  let levels := (List.range (maxDepth + 1)).flatMap levelTransitions
  let groups := (List.range maxDepth).flatMap groupTransitions
  let symbols : FiniteSet Char := ExtTreeSet.ofList (plainLetters ++ ['(', ')', '*', '+', '|'])
  (((Automaton.empty.setAlphabet symbols).addTransitions (levels ++ groups)).markStart
    (expecting 0)).markFinal (following 0)

/-- The deterministic automaton of the well-formed expressions. -/
def acceptor : Automaton String := depthAutomaton.determinize

/-- Whether a text is a well-formed expression. -/
def isWellformed (text : String) : Bool := acceptor.accepts text.toList

end FiniteAutomata.Regex
