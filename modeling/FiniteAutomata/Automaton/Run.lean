import FiniteAutomata.Automaton.Basic
import FiniteAutomata.Search

/-!
# Reading words

A set of states is closed by adding all that epsilon transitions reach from it. A move reads one
symbol, with epsilon transitions before and after it. A run starts at the least start state and
moves from state to state as long as there is exactly one state to move to; it ends when the word
is read, when there is none, or when there are several.
-/

namespace FiniteAutomata

open Std Search

/-- A place in a run with several states to go on to. -/
structure Branching (σ : Type) where
  /-- The state before the symbol. -/
  state : σ
  /-- The symbol that could be read in several ways. -/
  symbol : Char
  /-- The number of states to go on to. -/
  count : Nat
  deriving DecidableEq

/-- The message for a run that cannot go on in one way. -/
def Branching.message {σ : Type} [StateText σ] (place : Branching σ) : String :=
  "not a deterministic automaton: state " ++ StateText.quoted place.state ++ " has " ++
    toString place.count ++ " destinations on '" ++ String.singleton place.symbol ++ "'"

/-- How a run ends. -/
inductive Ending (σ : Type) where
  /-- The word has been read. -/
  | finished (state : σ)
  /-- No state can be reached by the symbol. -/
  | stuck (state : σ) (symbol : Char)
  /-- Several states can be reached by the symbol. -/
  | branching (place : Branching σ)
  deriving DecidableEq

/-- What happens on reading a word. -/
structure Run (σ : Type) where
  /-- The symbols read, each with the state that it leads to. -/
  steps : List (Char × σ)
  /-- How the run ends. -/
  ending : Ending σ
  deriving DecidableEq

namespace Automaton

variable {σ : Type} [Ord σ] [TransOrd σ]

/-- The members of a set and the states that epsilon transitions reach from them. -/
def close (A : Automaton σ) (X : FiniteSet σ) : FiniteSet σ :=
  ExtTreeSet.ofList <| search .depthFirst (fun q => (A.targets q .epsilon).toList)
    (A.states.size + X.size) X.toList

/-- The states reached from a state by one epsilon transition or more. The state itself is among
them only if such a path leads back to it. -/
def epsilonClosure (A : Automaton σ) (q : σ) : FiniteSet σ := A.close (A.targets q .epsilon)

/-- The states reached from a set by reading one symbol, with epsilon transitions before and
after it. -/
def move (A : Automaton σ) (X : FiniteSet σ) (c : Char) : FiniteSet σ :=
  A.close (FiniteSet.bind (A.close X) fun q => A.targets q (.symbol c))

/-- The states reached from one state by reading one symbol. -/
def moveFrom (A : Automaton σ) (q : σ) (c : Char) : FiniteSet σ := A.move (ExtTreeSet.ofList [q]) c

/-- The run on a word from a state. -/
def run (A : Automaton σ) : σ → List Char → Run σ
  | q, [] => ⟨[], .finished q⟩
  | q, c :: word =>
    match (A.moveFrom q c).toList with
    | [] => ⟨[], .stuck q c⟩
    | [r] =>
      let rest := A.run r word
      ⟨(c, r) :: rest.steps, rest.ending⟩
    | several => ⟨[], .branching ⟨q, c, several.length⟩⟩

/-- What the ending of a run says on the word: whether it ends in a final state, unless the run
branches. -/
def verdict (A : Automaton σ) : Ending σ → Except (Branching σ) Bool
  | .finished q => .ok (A.finals.contains q)
  | .stuck _ _ => .ok false
  | .branching place => .error place

/-- Whether the run on a word ends in a final state. Without a start state no word is accepted. -/
def accept (A : Automaton σ) (word : List Char) : Except (Branching σ) Bool :=
  match A.startState? with
  | none => .ok false
  | some q => A.verdict (A.run q word).ending

/-- Whether the run on a word ends in a final state, a run that branches not counted. -/
def accepts (A : Automaton σ) (word : List Char) : Bool :=
  match A.accept word with
  | .ok accepted => accepted
  | .error _ => false

end Automaton

end FiniteAutomata
