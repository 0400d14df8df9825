import FiniteAutomata.Regex.Postfix
import FiniteAutomata.Regex.Thompson

/-!
# Regular expressions

A regular expression is a text over letters, parentheses, union, concatenation, star and plus,
with its tokens in explicit infix and in postfix order. From the latter an automaton is built whose
alphabet is the set of the letters of the text.
-/

namespace FiniteAutomata

open Std

/-- A regular expression with its parentheses in balance. -/
structure Regex where
  /-- The text of the expression. -/
  source : String
  /-- Its tokens with every concatenation explicit. -/
  concatenated : List Regex.Token
  /-- Its tokens in postfix order. -/
  postfixTokens : List Regex.Token
  deriving DecidableEq

namespace Regex

/-- The tokens of characters from a position on. -/
def tokenizeFrom (position : Nat) : List Char → Except Error (List Token)
  | [] => .ok []
  | c :: rest =>
    match Token.ofChar? c with
    | none => .error (.unexpectedCharacter c position)
    | some t => (tokenizeFrom (position + 1) rest).map (t :: ·)

/-- The tokens of a text. -/
def tokenize (text : String) : Except Error (List Token) := tokenizeFrom 0 text.toList

/-- Reads an expression. -/
def parse (source : String) : Except Error Regex :=
  match tokenize source with
  | .error e => .error e
  | .ok tokens =>
    let concatenated := insertConcatenation tokens
    match toPostfix concatenated with
    | .error e => .error (.malformed e)
    | .ok postfixTokens => .ok ⟨source, concatenated, postfixTokens⟩

/-- The letters of the expression. -/
def alphabet (r : Regex) : FiniteSet Char :=
  ExtTreeSet.ofList (r.source.toList.filter Unicode.isAlphabetic)

/-- The construction of the automaton with the names of a namer. -/
def construct (r : Regex) (namer : Namer) : Construction :=
  let result := thompson r.postfixTokens namer
  { result with outcome := result.outcome.map fun A => A.setAlphabet r.alphabet }

/-- The names of the states of an automaton built on its own. -/
def stateNamer : Namer := ⟨'S', 0⟩

/-- The automaton of the expression. -/
def toAutomaton (r : Regex) : Except Malformed (Automaton String) :=
  (r.construct stateNamer).outcome

/-- The automaton of the expression with a given text. -/
def compile (source : String) : Except Error (Automaton String) :=
  match parse source with
  | .error e => .error e
  | .ok r => r.toAutomaton.mapError .malformed

end Regex

end FiniteAutomata
