import FiniteAutomata.Proofs.Automaton.Renaming

/-!
# Renaming as a homomorphism

Renaming states by functions respects identity and composition, as an equality of automata with
all that they keep: transitions, index, states, marks and alphabet. Any function takes the
transitions of a path to transitions of a path, so no word is lost. Where states are merged, paths
run together and may spell new words. Where a function is injective on all states, marked ones
included, there are none, and closures and moves of images are images of closures and moves
(`mapStates_homomorphism`).
-/

namespace FiniteAutomata.Automaton

open Std

variable {σ τ υ : Type} [Ord σ] [TransOrd σ] [LawfulEqOrd σ] [Ord τ] [TransOrd τ] [LawfulEqOrd τ]
  [Ord υ] [TransOrd υ] [LawfulEqOrd υ] {A : Automaton σ} {f : σ → τ} {q : σ}

/-- Whatever states are merged, words that lead from a start state to a final state still do. -/
theorem language_le_mapStates (A : Automaton σ) (f : σ → τ) :
    A.language ≤ (A.mapStates f).language := by
  rintro w ⟨q, hq, r, hr, h⟩
  exact ⟨f q, FiniteSet.mem_image.2 ⟨q, hq, rfl⟩, f r, FiniteSet.mem_image.2 ⟨r, hr, rfl⟩,
    leads_mapStates h⟩

/-- An injective renaming keeps the language. -/
theorem language_mapStates (hf : Set.InjOn f A.stateSet) :
    (A.mapStates f).language = A.language := by
  refine (A.language_le_mapStates f).antisymm' ?_
  rintro w ⟨_, hq', _, hr', h⟩
  -- Both ends of the path are images of marked states, between which the word leads already.
  obtain ⟨q, hq, rfl⟩ := FiniteSet.mem_image.1 hq'
  obtain ⟨r, hr, rfl⟩ := FiniteSet.mem_image.1 hr'
  exact ⟨q, hq, r, hr, (leads_mapStates_iff hf (mem_stateSet_of_mem_starts hq)
    (mem_stateSet_of_mem_finals hr)).1 h⟩

/-- The targets of an image are the images of the targets. -/
theorem targets_mapStates (hf : Set.InjOn f A.stateSet) (hq : q ∈ A.stateSet) (l : Label) :
    (A.mapStates f).targets (f q) l = FiniteSet.image f (A.targets q l) :=
  ExtTreeSet.ext_mem fun _ => (mem_targets_mapStates hf hq).trans FiniteSet.mem_image.symm

/-- The epsilon closure of an image is the image of the epsilon closure. -/
theorem epsilonClosure_mapStates (hf : Set.InjOn f A.stateSet) (hq : q ∈ A.stateSet) :
    (A.mapStates f).epsilonClosure (f q) = FiniteSet.image f (A.epsilonClosure q) := by
  rw [epsilonClosure, targets_mapStates hf hq]
  refine close_mapStates hf fun r hr => ?_
  exact (mem_stateSet_of_mem_transitions (mem_targets.1 hr)).2

/-- Renaming respects identity and composition and loses no word. It adds none either if it is
injective on the states, and then it commutes with closures and moves. -/
theorem mapStates_homomorphism (A : Automaton σ) (f : σ → τ) (g : τ → υ) :
    A.mapStates id = A ∧ (A.mapStates f).mapStates g = A.mapStates (g ∘ f) ∧
      (∀ w ∈ A.language, w ∈ (A.mapStates f).language) ∧
      (Set.InjOn f A.stateSet →
        (∀ w, w ∈ (A.mapStates f).language ↔ w ∈ A.language) ∧
        ∀ q ∈ A.stateSet,
          (A.mapStates f).epsilonClosure (f q) = FiniteSet.image f (A.epsilonClosure q) ∧
          ∀ c, (A.mapStates f).moveFrom (f q) c = FiniteSet.image f (A.moveFrom q c)) := by
  refine ⟨A.mapStates_id, A.mapStates_mapStates f g, A.language_le_mapStates f, fun hf => ⟨?_, ?_⟩⟩
  · intro w
    rw [language_mapStates hf]
  · intro q hq
    exact ⟨epsilonClosure_mapStates hf hq, moveFrom_mapStates hf hq⟩

/-- Squares tell the states of the mixed automaton apart, though not all numbers, so the closure of
`81` holds the square of what the closure of `9` holds. With all states merged into one the
automaton still accepts `a`, and `b` as well. -/
theorem mapStates_homomorphism_mixedAutomaton :
    (Set.InjOn (fun n : Int => n * n) mixedAutomaton.stateSet ∧
      ((mixedAutomaton.mapStates fun n => n * n).epsilonClosure 81).toList = [4]) ∧
      ['a'] ∈ (mixedAutomaton.mapStates fun _ => (0 : Int)).language ∧
      ['b'] ∈ (mixedAutomaton.mapStates fun _ => (0 : Int)).language ∧
      ['b'] ∉ mixedAutomaton.language := by
  obtain ⟨-, -, -, hinjective⟩ := mapStates_homomorphism mixedAutomaton (fun n => n * n) id
  obtain ⟨-, -, hkept, -⟩ := mapStates_homomorphism mixedAutomaton (fun _ => (0 : Int)) id
  have hstates : 9 ∈ mixedAutomaton.allStates ∧
      ∀ q ∈ mixedAutomaton.allStates.toList, ∀ r ∈ mixedAutomaton.allStates.toList,
        q * q = r * r → q = r := by decide +kernel
  have hf : Set.InjOn (fun n : Int => n * n) mixedAutomaton.stateSet := fun q hq r hr =>
    hstates.2 q (ExtTreeSet.mem_toList.2 hq) r (ExtTreeSet.mem_toList.2 hr)
  have hclosure :
      (FiniteSet.image (fun n : Int => n * n) (mixedAutomaton.epsilonClosure 9)).toList = [4] := by
    decide +kernel
  -- What words lead to is what moves lead to from the start set.
  have hends : 2 ∈ ['a'].foldl mixedAutomaton.move (mixedAutomaton.close mixedAutomaton.starts) ∧
      (∀ r ∈ mixedAutomaton.finals.toList,
        r ∉ ['b'].foldl mixedAutomaton.move (mixedAutomaton.close mixedAutomaton.starts)) ∧
      2 ∈ mixedAutomaton.finals := by decide +kernel
  obtain ⟨hword, hrefused, hfinal⟩ := hends
  obtain ⟨q, hq, hleads⟩ := mem_foldl_move_startSet.1 hword
  refine ⟨⟨hf, ?_⟩, hkept _ ⟨q, hq, 2, hfinal, hleads⟩, ?_, ?_⟩
  · rw [← hclosure, ← ((hinjective hf).2 9 hstates.1).1]
    rfl
  · -- Two states with a `b` between them have become one, which is a final state.
    have hmerged : (⟨0, .symbol 'b', 0⟩ : Transition Int) ∈
        (mixedAutomaton.mapStates fun _ => (0 : Int)).transitions ∧
        0 ∈ (mixedAutomaton.mapStates fun _ => (0 : Int)).starts ∧
        0 ∈ (mixedAutomaton.mapStates fun _ => (0 : Int)).finals := by decide +kernel
    exact ⟨0, hmerged.2.1, 0, hmerged.2.2, .symbol hmerged.1 (.nil 0)⟩
  · rintro ⟨q, hq, r, hr, h⟩
    exact hrefused r (ExtTreeSet.mem_toList.2 hr) (mem_foldl_move_startSet.2 ⟨q, hq, h⟩)

end FiniteAutomata.Automaton
