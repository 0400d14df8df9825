import FiniteAutomata.Automaton.Run
import FiniteAutomata.State

/-!
# Determinization

Reading a word in all possible ways at once leads from set of states to set of states. The sets
that can be reached from the closed set of the start states are searched depth first and become
the states of an automaton that has one transition for each of them and each symbol of the
alphabet. A set is named by its members; where no state is left, the transition leads to a trap.
`mem_transitions_subsetAutomaton` lists the transitions.
-/

namespace FiniteAutomata

open Std Search

/-- The members of a list of states between braces, parted by commas. -/
def compositeName {σ : Type} [StateText σ] (states : List σ) : String :=
  "\x7b" ++ String.intercalate "," (states.map StateText.text) ++ "\x7d"

/-- The name of a set of states. -/
def FiniteSet.name {σ : Type} [Ord σ] [TransOrd σ] [StateText σ] (X : FiniteSet σ) : String :=
  compositeName X.toList

/-- The state that reading goes to when it has nowhere to go. -/
def trapName : String := "TS"

namespace Automaton

variable {σ : Type} [Ord σ] [TransOrd σ]

/-- The non-empty sets that a set moves to, in the order of the symbols. -/
def moves (A : Automaton σ) (X : FiniteSet σ) : List (FiniteSet σ) :=
  (A.alphabet.toList.map (A.move X)).filter fun Y => !Y.isEmpty

/-- The set of states that reading starts with. -/
def startSet (A : Automaton σ) : FiniteSet σ := A.close A.starts

/-- The non-empty sets of states that reading a word over the alphabet can lead to, in the order of
a depth-first search. -/
def subsets (A : Automaton σ) : List (FiniteSet σ) :=
  if A.startSet.isEmpty then []
  else search .depthFirst A.moves (Nat.pow 2 A.allStates.size) [A.startSet]

/-- Whether a set has a final state. -/
def hasFinal (A : Automaton σ) (X : FiniteSet σ) : Bool := X.toList.any A.finals.contains

variable [StateText σ]

/-- The name of the set of states that a set moves to, or the trap if it is empty. -/
def moveName (A : Automaton σ) (X : FiniteSet σ) (c : Char) : String :=
  let Y := A.move X c
  if Y.isEmpty then trapName else Y.name

/-- The automaton whose states are some sets of states, closed under moves, and the trap. -/
def subsetAutomaton (A : Automaton σ) (subsets : List (FiniteSet σ)) : Automaton String :=
  let symbols := A.alphabet.toList
  let loops := symbols.map (Transition.selfLoop trapName)
  let edges := subsets.flatMap fun X =>
    symbols.map fun c => ⟨X.name, .symbol c, A.moveName X c⟩
  let graph := (empty.setAlphabet A.alphabet).addTransitions (loops ++ edges)
  { graph with
    starts := if A.startSet.isEmpty then ∅ else ExtTreeSet.ofList [A.startSet.name]
    finals := ExtTreeSet.ofList ((subsets.filter A.hasFinal).map FiniteSet.name) }

/-- The automaton of the sets of states that can be reached. -/
def determinize (A : Automaton σ) : Automaton String := A.subsetAutomaton A.subsets

/-- The transitions are the loops of the trap and, for each set and symbol, the one to the name of
the set moved to. -/
theorem mem_transitions_subsetAutomaton {A : Automaton σ} {subsets : List (FiniteSet σ)}
    {t : Transition String} :
    t ∈ (A.subsetAutomaton subsets).transitions ↔
      (∃ c ∈ A.alphabet, .selfLoop trapName c = t) ∨
        ∃ X ∈ subsets, ∃ c ∈ A.alphabet, ⟨X.name, .symbol c, A.moveName X c⟩ = t := by
  have : t ∉ ((empty : Automaton String).setAlphabet A.alphabet).transitions := by
    simp [empty, setAlphabet]
  rw [subsetAutomaton, mem_transitions_addTransitions]
  simp only [this, false_or, List.mem_append, List.mem_map, List.mem_flatMap,
    ExtTreeSet.mem_toList]

/-- The alphabet stays. -/
theorem alphabet_determinize (A : Automaton σ) : A.determinize.alphabet = A.alphabet :=
  alphabet_addTransitions _ _

end Automaton

end FiniteAutomata
