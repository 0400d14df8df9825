import FiniteAutomata.Automaton.Basic

/-!
# Renaming states by a function

A function on states sends an automaton to the automaton of the images, with the same alphabet.
States with one image merge, and so do transitions. Each part of the result is the image of that
part.
-/

namespace FiniteAutomata.Automaton

open Std

variable {σ τ : Type} [Ord σ] [TransOrd σ] [Ord τ] [TransOrd τ] [LawfulEqOrd τ]

/-- The automaton whose states are the images of the states. -/
def mapStates (A : Automaton σ) (f : σ → τ) : Automaton τ :=
  let image := (empty.setAlphabet A.alphabet).addTransitions
    (A.transitions.toList.map (Transition.map f))
  { image with
    starts := FiniteSet.image f A.starts
    finals := FiniteSet.image f A.finals }

/-- The transitions are the images of the transitions. -/
theorem mem_transitions_mapStates {A : Automaton σ} {f : σ → τ} [LawfulEqOrd σ]
    {t : Transition τ} :
    t ∈ (A.mapStates f).transitions ↔ ∃ u ∈ A.transitions, u.map f = t := by
  simp [mapStates, mem_transitions_addTransitions, empty, setAlphabet]

/-- The start states are the images of the start states. -/
theorem starts_mapStates (A : Automaton σ) (f : σ → τ) :
    (A.mapStates f).starts = FiniteSet.image f A.starts := rfl

/-- The final states are the images of the final states. -/
theorem finals_mapStates (A : Automaton σ) (f : σ → τ) :
    (A.mapStates f).finals = FiniteSet.image f A.finals := rfl

/-- The alphabet stays. -/
theorem alphabet_mapStates (A : Automaton σ) (f : σ → τ) :
    (A.mapStates f).alphabet = A.alphabet :=
  alphabet_addTransitions _ _

end FiniteAutomata.Automaton
