import FiniteAutomata.Automaton.Determinize
import FiniteAutomata.Proofs.Automaton.Renaming

/-!
# Histories of automata

An automaton keeps its transitions three times: as a set, in the index of successors and, through
their ends, in the set of states. A history is a sequence of operations on an automaton that was
empty at first, and it says by itself which transitions there are at its end, without a look at any
of the three: those that were added, with the images of the older ones after each renaming, or the
edges between sets of states after a determinization. All three show these and nothing else
(`History.result_shows`).

The transitions carry the proof. The invariant of an automaton gives the states and the index from
them (`shows_iff`), so what remains is one lemma for each operation on what it does to the
transitions, and an induction on the history. That the order and the number of additions are
forgotten, and that automata are told apart by the transitions, the marks and the alphabet, is then
the extensionality of sets (`History.representation`).
-/

namespace FiniteAutomata

open Std

/-- What can be done to an automaton in place. -/
inductive Operation (σ : Type) [Ord σ] where
  /-- The alphabet is replaced. -/
  | setAlphabet (symbols : FiniteSet Char)
  /-- A transition is added, which may be there already. -/
  | addTransition (t : Transition σ)
  /-- Some transitions are added in turn. -/
  | addTransitions (ts : List (Transition σ))
  /-- A state is marked as a start state. -/
  | markStart (q : σ)
  /-- A state is marked as final. -/
  | markFinal (q : σ)
  /-- All marks are taken off. -/
  | clearMarks

/-- The transitions that an operation adds. -/
def Operation.added {σ : Type} [Ord σ] : Operation σ → List (Transition σ)
  | .addTransition t => [t]
  | .addTransitions ts => ts
  | .setAlphabet _ | .markStart _ | .markFinal _ | .clearMarks => []

namespace Automaton

variable {σ τ : Type} [Ord σ] [TransOrd σ] [LawfulEqOrd σ] [Ord τ] [TransOrd τ] [LawfulEqOrd τ]
  {A : Automaton σ}

/-- The automaton after an operation. -/
def perform (A : Automaton σ) : Operation σ → Automaton σ
  | .setAlphabet symbols => A.setAlphabet symbols
  | .addTransition t => A.addTransition t
  | .addTransitions ts => A.addTransitions ts
  | .markStart q => A.markStart q
  | .markFinal q => A.markFinal q
  | .clearMarks => A.clearMarks

/-- After an operation the transitions are those of before and those that it adds. -/
theorem mem_transitions_perform {o : Operation σ} {t : Transition σ} :
    t ∈ (A.perform o).transitions ↔ t ∈ A.transitions ∨ t ∈ o.added := by
  cases o with
  | addTransition u =>
    rw [perform, addTransition, FiniteSet.mem_insert_iff, Operation.added, List.mem_singleton,
      or_comm]
  | addTransitions ts => exact mem_transitions_addTransitions
  | setAlphabet _ | markStart _ | markFinal _ | clearMarks =>
    exact (or_iff_left List.not_mem_nil).symm

/-! ## The three views -/

/-- Transitions, states and index all show a given set of transitions. -/
structure Shows (A : Automaton σ) (T : Set (Transition σ)) : Prop where
  /-- The transitions are the given ones. -/
  mem_transitions : ∀ t, t ∈ A.transitions ↔ t ∈ T
  /-- The states are their ends. -/
  mem_states : ∀ q, q ∈ A.states ↔ ∃ t ∈ T, q = t.source ∨ q = t.target
  /-- The targets that the index gives are their targets. -/
  mem_targets : ∀ q l r, r ∈ A.targets q l ↔ (⟨q, l, r⟩ : Transition σ) ∈ T
  /-- The index has rows for their sources and for no other state. -/
  mem_successors : ∀ q, q ∈ A.successors ↔ ∃ t ∈ T, q = t.source
  /-- The entries of the rows are the sets of their targets that are not empty, and no others. -/
  entry_iff : ∀ q l ts, (∃ row, A.successors[q]? = some row ∧ row[l]? = some ts) ↔
    ts ≠ ∅ ∧ ∀ r, r ∈ ts ↔ (⟨q, l, r⟩ : Transition σ) ∈ T

omit [LawfulEqOrd σ] in
/-- The index has rows for the sources of the transitions. -/
theorem mem_successors_iff {q : σ} : q ∈ A.successors ↔ ∃ t ∈ A.transitions, q = t.source := by
  have hnone : A.successors[q]? = none ↔ ∀ l, A.targets q l = ∅ :=
    A.consistent.compact.getElem?_eq_none_iff
  constructor
  · intro hq
    have hsome : A.successors[q]? ≠ none := by simpa using hq
    obtain ⟨l, hl⟩ := not_forall.1 (mt hnone.2 hsome)
    obtain ⟨r, hr⟩ := FiniteSet.exists_mem_of_ne_empty hl
    exact ⟨_, mem_targets.1 hr, rfl⟩
  · rintro ⟨⟨q, l, r⟩, ht, rfl⟩
    have hr : A.targets q l ≠ ∅ := FiniteSet.ne_empty_of_mem (mem_targets.2 ht)
    simpa using mt hnone.1 (fun h => hr (h l))

/-- The entries of the index are the sets of targets that are not empty. -/
theorem successors_entry_iff {q : σ} {l : Label} {ts : FiniteSet σ} :
    (∃ row, A.successors[q]? = some row ∧ row[l]? = some ts) ↔ ts ≠ ∅ ∧ A.targets q l = ts := by
  have hrow := A.consistent.compact.getElem?_row q l
  cases hq : A.successors[q]? with
  | none =>
    have hempty : A.targets q l = ∅ := A.consistent.compact.getElem?_eq_none_iff.1 hq l
    grind
  | some row =>
    rw [Successors.row, ExtTreeMap.getD_eq_getD_getElem?, hq, Option.getD_some] at hrow
    change row[l]? = if A.targets q l = ∅ then none else some (A.targets q l) at hrow
    grind

/-- An automaton shows a set of transitions as soon as its transitions are that set. -/
theorem shows_iff {T : Set (Transition σ)} : A.Shows T ↔ ∀ t, t ∈ A.transitions ↔ t ∈ T := by
  refine ⟨Shows.mem_transitions,
    fun hT => ⟨hT, fun q => ?_, fun q l r => ?_, fun q => ?_, fun q l ts => ?_⟩⟩
  · simp only [mem_states, hT]
  · rw [mem_targets, hT]
  · simp only [mem_successors_iff, hT]
  · rw [successors_entry_iff]
    refine and_congr_right fun _ => ?_
    constructor
    · rintro rfl r
      rw [mem_targets, hT]
    · intro hts
      refine ExtTreeSet.ext_mem fun r => ?_
      rw [mem_targets, hT, hts]

/-- Adding lists of transitions gives one automaton exactly when, together with the transitions that
are there, they have the same members. -/
theorem addTransitions_eq_iff {ts us : List (Transition σ)} :
    A.addTransitions ts = A.addTransitions us ↔
      ∀ t, t ∈ A.transitions ∨ t ∈ ts ↔ t ∈ A.transitions ∨ t ∈ us := by
  simp only [eq_iff, starts_addTransitions, finals_addTransitions, alphabet_addTransitions,
    and_true, ExtTreeSet.ext_mem_iff, mem_transitions_addTransitions]

/-- A transition that is there already is not added. -/
theorem addTransition_eq_self {t : Transition σ} (ht : t ∈ A.transitions) :
    A.addTransition t = A := by
  have hadd : A.addTransitions [t] = A.addTransitions [] := addTransitions_eq_iff.2 fun u => by
    rw [List.mem_singleton]
    refine ⟨fun hu => .inl ?_, fun hu => .inl (hu.resolve_right List.not_mem_nil)⟩
    obtain hu | rfl := hu
    · exact hu
    · exact ht
  exact hadd

/-! ## Histories -/

/-- The function that canonical renaming renames by. -/
def canonicalRenaming [StateText σ] (A : Automaton σ) (stem : Char) : σ → String :=
  match A.startState? with
  | none => StateText.text
  | some start =>
    if A.transitions.isEmpty || A.finals.isEmpty then StateText.text
    else A.canonicalName start stem

omit [LawfulEqOrd σ] in
/-- Canonical renaming is a renaming. -/
theorem renameCanonical_eq_mapStates [StateText σ] (A : Automaton σ) (stem : Char) :
    A.renameCanonical stem = A.mapStates (A.canonicalRenaming stem) := by
  rw [renameCanonical, canonicalRenaming]
  cases A.startState? with
  | none => rfl
  | some start => exact (apply_ite A.mapStates _ _ _).symm

end Automaton

open Automaton

/-- How an automaton came about: empty at first, then changed in place or replaced by an automaton
made from it, over other states perhaps. -/
inductive History : (σ : Type) → [Ord σ] → [TransOrd σ] → [LawfulEqOrd σ] → Type 1 where
  /-- Nothing has been done. -/
  | start {σ : Type} [Ord σ] [TransOrd σ] [LawfulEqOrd σ] : History σ
  /-- An operation has been performed. -/
  | perform {σ : Type} [Ord σ] [TransOrd σ] [LawfulEqOrd σ] (H : History σ) (o : Operation σ) :
      History σ
  /-- The states have been renamed by a function. -/
  | mapStates {σ τ : Type} [Ord σ] [TransOrd σ] [LawfulEqOrd σ] [Ord τ] [TransOrd τ]
      [LawfulEqOrd τ] (H : History σ) (f : σ → τ) : History τ
  /-- The states have got their canonical names. -/
  | renameCanonical {σ : Type} [Ord σ] [TransOrd σ] [LawfulEqOrd σ] [StateText σ]
      (H : History σ) (stem : Char) : History String
  /-- The automaton has been determinized. -/
  | determinize {σ : Type} [Ord σ] [TransOrd σ] [LawfulEqOrd σ] [StateText σ] (H : History σ) :
      History String

namespace History

/-- The automaton at the end of a history. -/
def result : {σ : Type} → [Ord σ] → [TransOrd σ] → [LawfulEqOrd σ] → History σ → Automaton σ
  | _, _, _, _, start => empty
  | _, _, _, _, @perform _ _ _ _ H o => H.result.perform o
  | _, _, _, _, @mapStates _ _ _ _ _ _ _ _ H f => H.result.mapStates f
  | _, _, _, _, @renameCanonical _ _ _ _ _ H stem => H.result.renameCanonical stem
  | _, _, _, _, @determinize _ _ _ _ _ H => H.result.determinize

/-- The transitions that there should be at the end of a history. -/
def transitions : {σ : Type} → [Ord σ] → [TransOrd σ] → [LawfulEqOrd σ] → History σ →
    Set (Transition σ)
  | _, _, _, _, start => ∅
  | _, _, _, _, @perform _ _ _ _ H o => H.transitions ∪ {t | t ∈ o.added}
  | _, _, _, _, @mapStates _ _ _ _ _ _ _ _ H f => Transition.map f '' H.transitions
  | _, _, _, _, @renameCanonical _ _ _ _ _ H stem =>
    Transition.map (H.result.canonicalRenaming stem) '' H.transitions
  | _, _, _, _, @determinize _ _ _ _ _ H =>
    Transition.selfLoop trapName '' {c | c ∈ H.result.alphabet} ∪
      {t | ∃ X ∈ H.result.subsets, ∃ c ∈ H.result.alphabet,
        t = ⟨X.name, .symbol c, H.result.moveName X c⟩}

variable {σ : Type} [Ord σ] [TransOrd σ] [LawfulEqOrd σ]

/-- The transitions of an automaton are those of its history. -/
theorem mem_transitions_result (H : History σ) (t : Transition σ) :
    t ∈ H.result.transitions ↔ t ∈ H.transitions := by
  induction H with
  | start => simp [result, transitions, Automaton.empty]
  | perform H o ih =>
    rw [result, mem_transitions_perform, ih]
    rfl
  | mapStates H f ih =>
    rw [result, mem_transitions_mapStates]
    simp only [ih, transitions, Set.mem_image]
  | renameCanonical H stem ih =>
    rw [result, renameCanonical_eq_mapStates, mem_transitions_mapStates]
    simp only [ih, transitions, Set.mem_image]
  | determinize H ih =>
    rw [result, Automaton.determinize, mem_transitions_subsetAutomaton]
    simp only [transitions, Set.mem_union, Set.mem_image, Set.mem_ofPred_eq, eq_comm]

/-- All three views of an automaton show the transitions of its history. -/
theorem result_shows (H : History σ) : H.result.Shows H.transitions :=
  shows_iff.2 H.mem_transitions_result

/-- The representation of an automaton with a history. Its transitions are those of the history, its
states the ends of these, and its index has an entry for a state and a label exactly when some of
these leave the state under the label, namely the set of their targets. The automaton equals
another one exactly when the transitions, the start and final states and the alphabet do. Two lists
of transitions added to it give one automaton exactly when they have the same members, those aside
that are there already, in whatever order and however often they list them. -/
theorem representation (H : History σ) :
    H.result.Shows H.transitions ∧
      (∀ B : Automaton σ, H.result = B ↔ H.result.transitions = B.transitions ∧
        H.result.starts = B.starts ∧ H.result.finals = B.finals ∧
        H.result.alphabet = B.alphabet) ∧
      ∀ ts us : List (Transition σ),
        (H.perform (.addTransitions ts)).result = (H.perform (.addTransitions us)).result ↔
          ∀ t, t ∈ H.transitions ∨ t ∈ ts ↔ t ∈ H.transitions ∨ t ∈ us := by
  refine ⟨H.result_shows, fun B => eq_iff, fun ts us => ?_⟩
  simp only [← H.mem_transitions_result]
  exact addTransitions_eq_iff

/-- A history in which a transition is added twice. -/
def repeatingHistory : History Int :=
  (start.perform (.addTransitions [⟨0, .symbol 'a', 1⟩, ⟨0, .symbol 'a', 1⟩])).perform
    (.markStart 0)

/-- Adding the transition once more, before or after another one, makes no difference; taking off
the marks does. -/
theorem representation_repeatingHistory :
    repeatingHistory.result.Shows repeatingHistory.transitions ∧
      repeatingHistory.result ≠ (repeatingHistory.perform .clearMarks).result ∧
      (repeatingHistory.perform (.addTransitions
          [⟨1, .epsilon, 0⟩, ⟨0, .symbol 'a', 1⟩, ⟨1, .epsilon, 0⟩])).result =
        (repeatingHistory.perform (.addTransitions [⟨1, .epsilon, 0⟩])).result := by
  obtain ⟨hshows, heq, hadd⟩ := repeatingHistory.representation
  have hmarks : repeatingHistory.result.starts ≠
      (repeatingHistory.perform .clearMarks).result.starts := by decide +kernel
  have ht : ⟨0, .symbol 'a', 1⟩ ∈ repeatingHistory.transitions :=
    (hshows.mem_transitions _).1 (by decide +kernel)
  refine ⟨hshows, fun h => hmarks ((heq _).1 h).2.1, (hadd _ _).2 fun t => ?_⟩
  simp only [List.mem_cons, List.not_mem_nil, or_false]
  constructor
  · rintro (h | rfl | rfl | rfl)
    · exact .inl h
    · exact .inr rfl
    · exact .inl ht
    · exact .inr rfl
  · rintro (h | rfl)
    · exact .inl h
    · exact .inr (.inl rfl)

end History

end FiniteAutomata
