import FiniteAutomata.Log.Basic
import FiniteAutomata.Regex.Wellformed

/-!
# What the stages log

Each stage in its logged form: the value is that of the plain form, and the entries tell how it
came about. Reading an expression logs its forms if it succeeds, a construction logs the height of
its stack before each token, determinization logs the sets in the order of the search and their
number, and a run logs its start and its steps.
-/

namespace FiniteAutomata

open Log

/-! ## Expressions -/

namespace Regex

/-- The entry for an expression that has been read. -/
def parsedEntry (r : Regex) : Entry :=
  ⟨.debug, "parsed " ++ Text.quoted r.source ++ ": concatenated " ++
    Text.quoted (Token.render r.concatenated) ++ ", postfix " ++
    Text.quoted (Token.render r.postfixTokens)⟩

/-- Reads an expression. -/
def parseLogged (source : String) : Logged (Except Error Regex) :=
  let result := parse source
  ⟨result, match result with
    | .ok r => [r.parsedEntry]
    | .error _ => []⟩

/-- The entry for a token that a construction looks at. -/
def tokenEntry (t : Token) (height : Nat) : Entry :=
  ⟨.trace, "thompson: token " ++ String.singleton t.toChar ++ " with " ++ toString height ++
    " fragments"⟩

/-- The construction of an automaton from tokens in postfix order. -/
def thompsonLogged (tokens : List Token) (namer : Namer) : Logged Construction :=
  let result := thompson tokens namer
  ⟨result, List.zipWith tokenEntry tokens result.heights⟩

/-- The construction of the automaton with the names of a namer. -/
def constructLogged (r : Regex) (namer : Namer) : Logged Construction :=
  let result := r.construct namer
  ⟨result, List.zipWith tokenEntry r.postfixTokens result.heights⟩

/-- The automaton of the expression with a given text. -/
def compileLogged (source : String) : Logged (Except Error (Automaton String)) := do
  match ← parseLogged source with
  | .error e => return .error e
  | .ok r => return (← r.constructLogged stateNamer).outcome.mapError .malformed

end Regex

/-! ## Automata -/

namespace Automaton

variable {σ : Type} [Ord σ] [Std.TransOrd σ] [StateText σ]

/-- The entries for the sets of states of a determinization, none if there are no sets. -/
def subsetEntries (subsets : List (FiniteSet σ)) : List Entry :=
  if subsets.isEmpty then []
  else subsets.map (fun X => ⟨.debug, "nfa2dfa: expanding " ++ X.name⟩) ++
    [⟨.debug, "nfa2dfa: " ++ toString subsets.length ++ " composite states"⟩]

/-- The automaton of the sets of states that can be reached. -/
def determinizeLogged (A : Automaton σ) : Logged (Automaton String) :=
  let subsets := A.subsets
  ⟨A.subsetAutomaton subsets, subsetEntries subsets⟩

/-- The entry for a symbol that was read. -/
def stepEntry (step : Char × σ) : Entry :=
  ⟨.trace, "'" ++ String.singleton step.1 ++ "' -> " ++ StateText.quoted step.2⟩

/-- The entries for the end of a run; only one that is stuck says so. -/
def endingEntries : Ending σ → List Entry
  | .stuck q c =>
    [⟨.trace, "no transition from " ++ StateText.quoted q ++ " on '" ++ String.singleton c ++
      "'"⟩]
  | _ => []

/-- The entries for a run on a word. -/
def runEntries (word : List Char) (start : σ) (r : Run σ) : List Entry :=
  ⟨.debug, "accept " ++ Text.quotedWith Text.doubleQuote word ++ " starting at " ++
    StateText.quoted start⟩ :: r.steps.map stepEntry ++ endingEntries r.ending

/-- Whether the run on a word ends in a final state. -/
def acceptLogged (A : Automaton σ) (word : List Char) : Logged (Except (Branching σ) Bool) :=
  match A.startState? with
  | none => ⟨.ok false, []⟩
  | some q =>
    let r := A.run q word
    ⟨A.verdict r.ending, runEntries word q r⟩

/-- Whether the run on a word ends in a final state, a run that branches not counted. -/
def acceptsLogged (A : Automaton σ) (word : List Char) : Logged Bool := do
  match ← A.acceptLogged word with
  | .ok accepted => return accepted
  | .error _ => return false

end Automaton

/-! ## Well-formed expressions -/

/-- Whether a text is a well-formed expression. -/
def Regex.isWellformedLogged (text : String) : Logged Bool :=
  acceptor.acceptsLogged text.toList

/-! ## Values -/

/-- Logging does not change what is compiled. -/
theorem Regex.value_compileLogged (source : String) :
    (compileLogged source).value = compile source := by
  simp only [compileLogged, compile, bind, parseLogged]
  cases parse source <;> rfl

/-- Logging does not change the determinized automaton. -/
theorem Automaton.value_determinizeLogged {σ : Type} [Ord σ] [Std.TransOrd σ] [StateText σ]
    (A : Automaton σ) : A.determinizeLogged.value = A.determinize := rfl

end FiniteAutomata
