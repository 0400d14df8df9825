import FiniteAutomata.Automaton.Successors

/-!
# Finite automata

An automaton has transitions, start and final states and an alphabet. Its states are the ends of
its transitions; a start or final state need not be among them. The index of successors and the
set of states are kept beside the transitions and agree with them, so two automata are equal when
their transitions, marks and alphabets are (`eq_iff`).
-/

namespace FiniteAutomata

open Std

/-- The index and the states say the same as the transitions. -/
structure Consistent {σ : Type} [Ord σ] [TransOrd σ] (transitions : FiniteSet (Transition σ))
    (successors : Successors σ) (states : FiniteSet σ) : Prop where
  /-- The states are the ends of the transitions. -/
  mem_states : ∀ q, q ∈ states ↔ ∃ t ∈ transitions, q = t.source ∨ q = t.target
  /-- The index gives the targets of the transitions. -/
  mem_targets : ∀ q l r, r ∈ successors.targets q l ↔ (⟨q, l, r⟩ : Transition σ) ∈ transitions
  /-- The index holds nothing else. -/
  compact : successors.Compact

/-- A finite automaton, deterministic or not. -/
structure Automaton (σ : Type) [Ord σ] [TransOrd σ] where
  /-- The transitions. -/
  transitions : FiniteSet (Transition σ)
  /-- The targets of the transitions, by source and label. -/
  successors : Successors σ
  /-- The ends of the transitions. -/
  states : FiniteSet σ
  /-- The start states. -/
  starts : FiniteSet σ
  /-- The final states. -/
  finals : FiniteSet σ
  /-- The symbols that the automaton is about, whether or not it reads them. -/
  alphabet : FiniteSet Char
  /-- The transitions, the index and the states agree. -/
  consistent : Consistent transitions successors states

namespace Automaton

variable {σ : Type} [Ord σ] [TransOrd σ]

/-- The automaton without transitions, marks and symbols. -/
def empty : Automaton σ where
  transitions := ∅
  successors := ∅
  states := ∅
  starts := ∅
  finals := ∅
  alphabet := ∅
  consistent := ⟨by simp, by simp [Successors.targets_empty], Successors.compact_empty⟩

instance : Inhabited (Automaton σ) := ⟨empty⟩

/-- The automaton with another alphabet. -/
def setAlphabet (A : Automaton σ) (symbols : FiniteSet Char) : Automaton σ :=
  { A with alphabet := symbols }

/-- The automaton with one more start state. -/
def markStart (A : Automaton σ) (q : σ) : Automaton σ := { A with starts := A.starts.insert q }

/-- The automaton with one more final state. -/
def markFinal (A : Automaton σ) (q : σ) : Automaton σ := { A with finals := A.finals.insert q }

/-- The automaton without start and final states. -/
def clearMarks (A : Automaton σ) : Automaton σ := { A with starts := ∅, finals := ∅ }

/-- The states, marked ones included that no transition touches. -/
def allStates (A : Automaton σ) : FiniteSet σ := A.states ∪ A.starts ∪ A.finals

/-- The states that the transitions from a state under a label lead to. -/
def targets (A : Automaton σ) (q : σ) (l : Label) : FiniteSet σ := A.successors.targets q l

/-- The least start state, which a run starts from. -/
def startState? (A : Automaton σ) : Option σ := A.starts.toList.head?

/-- Whether there is one start state and every transition reads a symbol. A state may still have
two targets under one symbol. -/
def isDeterministic (A : Automaton σ) : Bool :=
  A.starts.size == 1 && !A.transitions.toList.any Transition.isEpsilon

/-- The states are the ends of the transitions. -/
theorem mem_states {A : Automaton σ} {q : σ} :
    q ∈ A.states ↔ ∃ t ∈ A.transitions, q = t.source ∨ q = t.target :=
  A.consistent.mem_states q

/-- A state in the wide sense is touched by a transition or marked. -/
theorem mem_allStates {A : Automaton σ} {q : σ} :
    q ∈ A.allStates ↔ q ∈ A.states ∨ q ∈ A.starts ∨ q ∈ A.finals := by
  simp only [allStates, ExtTreeSet.mem_union_iff, or_assoc]

/-- A state is a target exactly when the transition is there. -/
theorem mem_targets {A : Automaton σ} {q r : σ} {l : Label} :
    r ∈ A.targets q l ↔ (⟨q, l, r⟩ : Transition σ) ∈ A.transitions :=
  A.consistent.mem_targets q l r

section Lawful

variable [LawfulEqOrd σ]

/-- Adding a transition to all three of its places keeps them in agreement. -/
theorem consistent_insert {transitions : FiniteSet (Transition σ)} {successors : Successors σ}
    {states : FiniteSet σ} (h : Consistent transitions successors states) (t : Transition σ) :
    Consistent (transitions.insert t) (successors.link t)
      ((states.insert t.source).insert t.target) where
  mem_states q := by
    simp only [FiniteSet.mem_insert_iff, h.mem_states]
    constructor
    · rintro (rfl | rfl | ⟨u, hu, hq⟩)
      · exact ⟨t, .inl rfl, .inr rfl⟩
      · exact ⟨t, .inl rfl, .inl rfl⟩
      · exact ⟨u, .inr hu, hq⟩
    · rintro ⟨u, rfl | hu, hq⟩
      · exact hq.elim (fun hq => .inr (.inl hq)) .inl
      · exact .inr (.inr ⟨u, hu, hq⟩)
  mem_targets q l r := by
    rw [Successors.mem_targets_link, FiniteSet.mem_insert_iff, h.mem_targets, eq_comm]
  compact := h.compact.link t

/-- The automaton with one more transition. -/
def addTransition (A : Automaton σ) (t : Transition σ) : Automaton σ :=
  { A with
    transitions := A.transitions.insert t
    successors := A.successors.link t
    states := (A.states.insert t.source).insert t.target
    consistent := consistent_insert A.consistent t }

/-- The automaton with some more transitions. -/
def addTransitions (A : Automaton σ) (ts : List (Transition σ)) : Automaton σ :=
  ts.foldl addTransition A

/-- Adding transitions adds them and nothing else. -/
theorem mem_transitions_addTransitions {A : Automaton σ} {ts : List (Transition σ)}
    {t : Transition σ} :
    t ∈ (A.addTransitions ts).transitions ↔ t ∈ A.transitions ∨ t ∈ ts := by
  induction ts generalizing A with
  | nil => simp [addTransitions]
  | cons u rest ih =>
    rw [addTransitions, List.foldl_cons, ← addTransitions, ih, addTransition,
      FiniteSet.mem_insert_iff, List.mem_cons]
    grind

/-- Adding transitions leaves the start states alone. -/
theorem starts_addTransitions (A : Automaton σ) (ts : List (Transition σ)) :
    (A.addTransitions ts).starts = A.starts := by
  induction ts generalizing A with
  | nil => rfl
  | cons u rest ih => exact ih (A.addTransition u)

/-- Adding transitions leaves the final states alone. -/
theorem finals_addTransitions (A : Automaton σ) (ts : List (Transition σ)) :
    (A.addTransitions ts).finals = A.finals := by
  induction ts generalizing A with
  | nil => rfl
  | cons u rest ih => exact ih (A.addTransition u)

/-- Adding transitions leaves the alphabet alone. -/
theorem alphabet_addTransitions (A : Automaton σ) (ts : List (Transition σ)) :
    (A.addTransitions ts).alphabet = A.alphabet := by
  induction ts generalizing A with
  | nil => rfl
  | cons u rest ih => exact ih (A.addTransition u)

/-- Two automata with the same transitions, marks and alphabet are equal. -/
theorem eq_iff {A B : Automaton σ} : A = B ↔ A.transitions = B.transitions ∧
    A.starts = B.starts ∧ A.finals = B.finals ∧ A.alphabet = B.alphabet := by
  refine ⟨fun h => h ▸ ⟨rfl, rfl, rfl, rfl⟩, fun ⟨ht, hs, hf, ha⟩ => ?_⟩
  have hsucc : A.successors = B.successors :=
    A.consistent.compact.eq_of_mem_targets B.consistent.compact fun q l r => by
      rw [A.consistent.mem_targets, B.consistent.mem_targets, ht]
  have hstates : A.states = B.states := ExtTreeSet.ext_mem fun q => by
    rw [A.consistent.mem_states, B.consistent.mem_states, ht]
  cases A
  cases B
  simp_all

instance : DecidableEq (Automaton σ) := fun _ _ => decidable_of_iff _ eq_iff.symm

end Lawful

end Automaton

end FiniteAutomata
