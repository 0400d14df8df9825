import FiniteAutomata.Proofs.Automaton.Renaming

/-!
# Canonical forms

Texts have a say in the canonical order where the shape of an automaton leaves a choice: between
start states, between the targets of one label and between states that are not reached. Where it
leaves none, as in a deterministic automaton with one state at most that is not reached, isomorphic
automata have corresponding canonical orders, whatever the texts of their states are, and the
canonical renaming of both is the same (`ShapeDecides.renameCanonical_mapStates`). Since a canonical
renaming is isomorphic to what it renames, it decides isomorphism (`renameCanonical_eq_iff`).
-/

namespace FiniteAutomata.Automaton

open Std

/-- The members of a list without duplicates come in the order of their positions. -/
theorem exists_pairwise_of_nodup {α : Type} {xs : List α} (h : xs.Nodup) :
    ∃ lt : α → α → Prop, Std.Asymm lt ∧ xs.Pairwise lt := by
  classical
  refine ⟨fun a b => xs.idxOf a < xs.idxOf b, ⟨fun a b => Nat.lt_asymm⟩, ?_⟩
  rw [List.pairwise_iff_getElem]
  intro m n hm hn hmn
  rwa [h.idxOf_getElem m hm, h.idxOf_getElem n hn]

variable {σ τ : Type} [Ord σ] [TransOrd σ] [LawfulEqOrd σ] [Ord τ] [TransOrd τ] [LawfulEqOrd τ]
  {A : Automaton σ} {start : σ}

/-- The shape of a nameable automaton leaves no choice: there is one start state, one target at most
for each state and label, and one state at most that is not reached. -/
structure ShapeDecides (A : Automaton σ) (start : σ) : Prop where
  /-- The start is the only start state. -/
  mem_starts : ∀ q, q ∈ A.starts ↔ q = start
  /-- There is a transition. -/
  transitions_ne_empty : A.transitions ≠ ∅
  /-- Some state is final. -/
  finals_ne_empty : A.finals ≠ ∅
  /-- Transitions from one state under one label lead to one state. -/
  target_eq : ∀ t ∈ A.transitions, ∀ u ∈ A.transitions, t.source = u.source → t.label = u.label →
    t.target = u.target
  /-- States that no word leads to from the start are one state. -/
  unreached_eq : ∀ q ∈ A.stateSet, ∀ r ∈ A.stateSet, (∀ w, ¬A.Leads start w q) →
    (∀ w, ¬A.Leads start w r) → q = r

omit [LawfulEqOrd σ] in
/-- The automaton has a start state, a transition and a final state. -/
theorem ShapeDecides.nameable (h : A.ShapeDecides start) : A.Nameable where
  starts_ne_empty := FiniteSet.ne_empty_of_mem ((h.mem_starts start).2 rfl)
  transitions_ne_empty := h.transitions_ne_empty
  finals_ne_empty := h.finals_ne_empty

/-- The only start state is the least one. -/
theorem ShapeDecides.startState?_eq (h : A.ShapeDecides start) : A.startState? = some start := by
  rw [startState?, FiniteSet.toList_eq_singleton h.mem_starts, List.head?_cons]

omit [LawfulEqOrd σ] in
/-- The start is a state. -/
theorem ShapeDecides.mem_stateSet (h : A.ShapeDecides start) : start ∈ A.stateSet :=
  mem_stateSet_of_mem_starts ((h.mem_starts start).2 rfl)

variable [StateText σ] [StateText τ]

/-- A state that is not reached is one that no word leads to. -/
theorem mem_unreached_iff {q : σ} :
    q ∈ A.unreached start ↔ q ∈ A.stateSet ∧ ∀ w, ¬A.Leads start w q := by
  rw [mem_unreached, mem_reachable, not_exists]

/-- Whether the shape decides can be computed. -/
theorem shapeDecides_iff : A.ShapeDecides start ↔
    A.starts.toList = [start] ∧ A.transitions ≠ ∅ ∧ A.finals ≠ ∅ ∧
      (∀ t ∈ A.transitions.toList, ∀ u ∈ A.transitions.toList, t.source = u.source →
        t.label = u.label → t.target = u.target) ∧
      ∀ q ∈ (A.unreached start).toList, ∀ r ∈ (A.unreached start).toList, q = r := by
  simp only [ExtTreeSet.mem_toList, mem_unreached_iff]
  constructor
  · intro h
    exact ⟨FiniteSet.toList_eq_singleton h.mem_starts, h.transitions_ne_empty, h.finals_ne_empty,
      h.target_eq, fun q hq r hr => h.unreached_eq q hq.1 r hr.1 hq.2 hr.2⟩
  · rintro ⟨hstarts, htransitions, hfinals, htarget, hunreached⟩
    refine ⟨fun q => ?_, htransitions, hfinals, htarget, fun q hq r hr hq' hr' => ?_⟩
    · rw [← ExtTreeSet.mem_toList, hstarts, List.mem_singleton]
    · exact hunreached q ⟨hq, hq'⟩ r ⟨hr, hr'⟩

instance [DecidableEq σ] : Decidable (A.ShapeDecides start) :=
  decidable_of_iff _ shapeDecides_iff.symm

/-- A set without two members is in any order. -/
theorem pairwise_sortByName_of_eq {X : FiniteSet σ} (h : ∀ q ∈ X, ∀ r ∈ X, q = r)
    (lt : σ → σ → Prop) : (sortByName X).Pairwise lt :=
  (nodup_sortByName X).imp_of_mem fun hq hr hne =>
    absurd (h _ (mem_sortByName.1 hq) _ (mem_sortByName.1 hr)) hne

/-- If the shape decides, texts have nothing to decide. -/
theorem ShapeDecides.textsAgree (h : A.ShapeDecides start) (lt : σ → σ → Prop) :
    A.TextsAgree start lt where
  targets q _ l := pairwise_sortByName_of_eq (fun _ hr _ hs =>
    h.target_eq _ (mem_targets.1 hr) _ (mem_targets.1 hs) rfl rfl) lt
  unreached := by
    refine pairwise_sortByName_of_eq (fun q hq r hr => ?_) lt
    rw [mem_unreached_iff] at hq hr
    exact h.unreached_eq q hq.1 r hr.1 hq.2 hr.2

/-- An injective renaming to an automaton whose shape decides is lost in the canonical renaming that
comes after it. -/
theorem ShapeDecides.renameCanonical_mapStates {f : σ → τ} (hA : A.ShapeDecides start)
    (hf : Set.InjOn f A.stateSet) (h : (A.mapStates f).ShapeDecides (f start)) (stem : Char) :
    (A.mapStates f).renameCanonical stem = A.renameCanonical stem := by
  have hnodup : ((A.canonicalOrder start).map f).Nodup :=
    (A.nodup_canonicalOrder start).map_on fun q hq r hr =>
      hf ((mem_canonicalOrder hA.mem_stateSet).1 hq) ((mem_canonicalOrder hA.mem_stateSet).1 hr)
  -- The texts agree with any order of the images, so with the one in which they are named.
  obtain ⟨lt, hasymm, hlt⟩ := exists_pairwise_of_nodup hnodup
  exact hA.nameable.renameCanonical_mapStates hA.startState?_eq h.startState?_eq
    (canonicalOrder_mapStates hf hA.mem_stateSet (h.textsAgree lt) hlt) stem

/-- Canonical renaming decides isomorphism of automata whose shape decides. -/
theorem renameCanonical_eq_iff {A : Automaton σ} {B : Automaton τ} {s : σ} {t : τ}
    (hA : A.ShapeDecides s) (hB : B.ShapeDecides t) (stem : Char) :
    A.renameCanonical stem = B.renameCanonical stem ↔
      A.alphabet = B.alphabet ∧ ∃ f, IsIsomorphism A B f := by
  constructor
  · -- Both are renamed by injective functions to the same automaton.
    intro h
    rw [hA.nameable.renameCanonical_eq hA.startState?_eq,
      hB.nameable.renameCanonical_eq hB.startState?_eq] at h
    have : Nonempty τ := ⟨t⟩
    exact exists_isIsomorphism_of_mapStates_eq (injOn_canonicalName hA.mem_stateSet)
      (injOn_canonicalName hB.mem_stateSet) h
  · -- The isomorphism takes the one start state to the other.
    rintro ⟨halphabet, f, hiso⟩
    have hstart : f s ∈ B.starts := (hiso.mem_starts _).2 ⟨s, (hA.mem_starts s).2 rfl, rfl⟩
    have hst : f s = t := (hB.mem_starts _).1 hstart
    obtain ⟨hf, rfl⟩ := isIsomorphism_iff.1 ⟨halphabet, hiso⟩
    rw [← hst] at hB
    exact (hA.renameCanonical_mapStates hf hB stem).symm

/-- An automaton for words of `a`s, with a trap on `b` and a state that is not reached. -/
def numberedAutomaton : Automaton Int :=
  (((empty.setAlphabet (ExtTreeSet.ofList ['a', 'b'])).addTransitions
    [⟨1, .symbol 'a', 2⟩, ⟨1, .symbol 'b', 3⟩, ⟨2, .symbol 'a', 2⟩, ⟨2, .symbol 'b', 3⟩,
      ⟨3, .symbol 'a', 3⟩, ⟨3, .symbol 'b', 3⟩, ⟨9, .symbol 'a', 1⟩]).markStart 1).markFinal 2

/-- The same automaton with words for its states, which sort otherwise than the numbers. -/
def wordedAutomaton : Automaton String :=
  (((empty.setAlphabet (ExtTreeSet.ofList ['a', 'b'])).addTransitions
    [⟨"start", .symbol 'a', "loop"⟩, ⟨"start", .symbol 'b', "dead"⟩, ⟨"loop", .symbol 'a', "loop"⟩,
      ⟨"loop", .symbol 'b', "dead"⟩, ⟨"dead", .symbol 'a', "dead"⟩, ⟨"dead", .symbol 'b', "dead"⟩,
      ⟨"lost", .symbol 'a', "start"⟩]).markStart "start").markFinal "loop"

/-- The two automata have one canonical form, so they are isomorphic. -/
theorem exists_isIsomorphism_numberedAutomaton :
    numberedAutomaton.ShapeDecides 1 ∧ wordedAutomaton.ShapeDecides "start" ∧
      numberedAutomaton.renameCanonical 'q' = wordedAutomaton.renameCanonical 'q' ∧
      numberedAutomaton.alphabet = wordedAutomaton.alphabet ∧
      ∃ f, IsIsomorphism numberedAutomaton wordedAutomaton f := by
  have hnumbered : numberedAutomaton.ShapeDecides 1 := by decide +kernel
  have hworded : wordedAutomaton.ShapeDecides "start" := by decide +kernel
  have hform : numberedAutomaton.renameCanonical 'q' = wordedAutomaton.renameCanonical 'q' := by
    decide +kernel
  exact ⟨hnumbered, hworded, hform, (renameCanonical_eq_iff hnumbered hworded 'q').1 hform⟩

end FiniteAutomata.Automaton
