import FiniteAutomata.Label
import FiniteAutomata.State

/-!
# Transitions

A transition leads from a state to a state under a label. Transitions are ordered by source,
label and target in turn.
-/

namespace FiniteAutomata

open Std

/-- An edge of an automaton. -/
@[ext]
structure Transition (σ : Type) where
  /-- The state that the transition leaves. -/
  source : σ
  /-- What the transition reads. -/
  label : Label
  /-- The state that the transition enters. -/
  target : σ
  deriving DecidableEq

namespace Transition

variable {σ τ : Type}

section Order

variable [Ord σ]

instance : Ord (Transition σ) :=
  ⟨compareLex (compareOn source) (compareLex (compareOn label) (compareOn target))⟩

instance [TransOrd σ] : TransOrd (Transition σ) :=
  inferInstanceAs (TransCmp (compareLex (compareOn source)
    (compareLex (compareOn label) (compareOn target))))

instance [TransOrd σ] [LawfulEqOrd σ] : LawfulEqOrd (Transition σ) where
  eq_of_compare {s t} h := by
    have h : compareLex (compareOn source) (compareLex (compareOn label) (compareOn target))
      s t = .eq := h
    simp only [compareLex_eq_eq, compareOn] at h
    exact Transition.ext (LawfulEqOrd.eq_of_compare h.1) (LawfulEqOrd.eq_of_compare h.2.1)
      (LawfulEqOrd.eq_of_compare h.2.2)

end Order

/-- Whether the transition reads nothing. -/
def isEpsilon (t : Transition σ) : Bool := t.label.isEpsilon

/-- The transition between the images of its ends. -/
def map (f : σ → τ) (t : Transition σ) : Transition τ := ⟨f t.source, t.label, f t.target⟩

/-- A transition that leaves a state and comes back to it. -/
def selfLoop (q : σ) (c : Char) : Transition σ := ⟨q, .symbol c, q⟩

/-- The transition as an arrow with its source and label before it. -/
def text [StateText σ] (t : Transition σ) : String :=
  "(" ++ StateText.text t.source ++ ", " ++ t.label.text ++ ") --> " ++ StateText.text t.target

end Transition

end FiniteAutomata
