import FiniteAutomata.Proofs.Automaton.CompositeName
import FiniteAutomata.Proofs.Automaton.Path

/-!
# Determinization keeps the language

If the names of the sets of states tell these sets apart, the determinized automaton has exactly one
transition for each state and symbol, and a run on it never branches and accepts the words over the
alphabet that lead from a start state to a final state (`isDeterminization_determinize`). The names
do so when no text of a state has a comma (`namesDistinct_of_comma_free`), and when all states are
names of one stem, which may be the comma (`namesDistinct_of_nameOf`).

The proof ties the states of the result to sets. The trap stands for the empty set, so that every
state is the name of an *occurring* set: the empty one or one that the search found. Occurring sets
are closed under moves, and under the hypothesis on names a state stands for one occurring set only.
The transitions then go from the name of a set to the name of the set that it moves to, a run stands
on the name of the set that the word so far leads to, and acceptance asks whether this set has a
final state.
-/

namespace FiniteAutomata

open Std Search

variable {σ : Type} [Ord σ] [TransOrd σ]

/-- The state that stands for a set of states: its name, or the trap for the empty set. -/
def FiniteSet.stateName [StateText σ] (X : FiniteSet σ) : String :=
  if X.isEmpty then trapName else X.name

/-- The trap stands for the empty set. -/
theorem FiniteSet.stateName_empty [StateText σ] : (∅ : FiniteSet σ).stateName = trapName := by
  simp [stateName]

/-- A set with members is stood for by its name. -/
theorem FiniteSet.stateName_of_ne_empty [StateText σ] {X : FiniteSet σ} (h : X ≠ ∅) :
    X.stateName = X.name := by
  rw [stateName, if_neg (mt ExtTreeSet.isEmpty_iff.1 h)]

namespace Automaton

/-- Different non-empty sets of states have different names. -/
def NamesDistinct [StateText σ] (A : Automaton σ) : Prop :=
  ∀ X Y : FiniteSet σ, (∀ q ∈ X, q ∈ A.allStates) → (∀ q ∈ Y, q ∈ A.allStates) →
    X ≠ ∅ → Y ≠ ∅ → X.name = Y.name → X = Y

/-- Sets of states that the search found and that have one name move, on every symbol of the
alphabet, to sets with one name. -/
def NamesCoherent [StateText σ] (A : Automaton σ) : Prop :=
  ∀ X ∈ A.subsets, ∀ Y ∈ A.subsets, X.name = Y.name → ∀ c ∈ A.alphabet,
    A.moveName X c = A.moveName Y c

/-- What a deterministic form of an automaton is: it has one transition for each state and symbol, a
start state if there is one to have, and the same words over the alphabet. -/
structure IsDeterminization (A : Automaton σ) (D : Automaton String) : Prop where
  /-- The alphabet is the same. -/
  alphabet_eq : D.alphabet = A.alphabet
  /-- No transition reads nothing. -/
  isEpsilon_eq_false : ∀ t ∈ D.transitions, t.isEpsilon = false
  /-- Each state, marked ones included, has exactly one transition on each symbol. -/
  existsUnique_transition : ∀ q ∈ D.allStates, ∀ c ∈ A.alphabet,
    ∃! t, t ∈ D.transitions ∧ t.source = q ∧ t.label = .symbol c
  /-- Without start states there is no start state. -/
  starts_eq_empty : A.starts = ∅ → D.starts = ∅
  /-- Otherwise there is exactly one. -/
  existsUnique_start : A.starts ≠ ∅ → ∃! q, q ∈ D.starts
  /-- No run branches, and a word is accepted when it is over the alphabet and leads from a start
  state to a final state. -/
  accept_eq_ok : ∀ w : List Char, ∃ b, D.accept w = .ok b ∧
    (b = true ↔ (∀ c ∈ w, c ∈ A.alphabet) ∧ ∃ q ∈ A.starts, ∃ r ∈ A.finals, A.Leads q w r)

/-- A set of states occurs when it is empty or the search found it. -/
def Occurs (A : Automaton σ) (X : FiniteSet σ) : Prop := X = ∅ ∨ X ∈ A.subsets

/-- A state stands for one occurring set only. -/
def StandsForOne [StateText σ] (A : Automaton σ) : Prop :=
  Set.InjOn FiniteSet.stateName {X | A.Occurs X}

variable {A : Automaton σ}

/-! ## The sets that the search finds -/

/-- What a set of states moves to are the non-empty sets reached by some symbol of the alphabet. -/
theorem mem_moves {X Y : FiniteSet σ} :
    Y ∈ A.moves X ↔ (∃ c ∈ A.alphabet, A.move X c = Y) ∧ Y ≠ ∅ := by
  simp [moves]

variable [LawfulEqOrd σ]

/-- Sets move to states that some transition touches. -/
theorem mem_states_of_mem_move {X : FiniteSet σ} {c : Char} {r : σ} (h : r ∈ A.move X c) :
    r ∈ A.states := by
  obtain ⟨q, -, hqr⟩ := mem_move.1 h
  obtain ⟨p, p', -, ht, hp'⟩ := Path.cons_iff.1 hqr
  obtain rfl | hr := eq_or_mem_states_of_leads hp'
  · exact mem_states.2 ⟨_, ht, .inr rfl⟩
  · exact hr

/-- No set moves to a state that is not a state of the automaton. -/
theorem mem_allStates_of_mem_move {X : FiniteSet σ} {c : Char} {r : σ} (h : r ∈ A.move X c) :
    r ∈ A.allStates :=
  mem_allStates.2 (.inl (mem_states_of_mem_move h))

/-- The start set consists of states of the automaton. -/
theorem mem_allStates_of_mem_startSet {r : σ} (h : r ∈ A.startSet) : r ∈ A.allStates := by
  obtain ⟨q, hq, hqr⟩ := mem_close.1 h
  obtain rfl | hr := eq_or_mem_states_of_leads hqr
  · exact mem_allStates.2 (.inr (.inl hq))
  · exact mem_allStates.2 (.inl hr)

/-- The subsets of the states enclose the search for the sets of states. -/
theorem encloses_subsets (A : Automaton σ) :
    Encloses A.moves A.allStates.subsets (Nat.pow 2 A.allStates.size) [A.startSet] where
  seeds_mem X hX := by
    rw [List.mem_singleton] at hX
    rw [hX, FiniteSet.mem_subsets]
    exact fun q hq => mem_allStates_of_mem_startSet hq
  neighbours_mem X _ Y hY := by
    obtain ⟨⟨c, -, rfl⟩, -⟩ := mem_moves.1 hY
    exact FiniteSet.mem_subsets.2 fun q hq => mem_allStates_of_mem_move hq
  card_le := (FiniteSet.card_subsets _).le

/-- The start set is empty only if there are no start states. -/
theorem startSet_eq_empty_iff : A.startSet = ∅ ↔ A.starts = ∅ := by
  rw [ExtTreeSet.eq_empty_iff_forall_not_mem, ExtTreeSet.eq_empty_iff_forall_not_mem]
  constructor
  · intro h q hq
    exact h q (mem_close.2 ⟨q, hq, .nil q⟩)
  · intro h r hr
    obtain ⟨q, hq, -⟩ := mem_close.1 hr
    exact h q hq

/-- The search finds the sets that moves lead to from the start set, if this has members. -/
theorem mem_subsets_iff {X : FiniteSet σ} :
    X ∈ A.subsets ↔ A.startSet ≠ ∅ ∧ Reaches A.moves A.startSet X := by
  rw [subsets]
  split
  · rename_i h
    simp [ExtTreeSet.isEmpty_iff.1 h]
  · rename_i h
    have hne : A.startSet ≠ ∅ := fun hs => h (ExtTreeSet.isEmpty_iff.2 hs)
    rw [mem_search A.encloses_subsets]
    simp [hne]

/-- The sets that the search finds are not empty. -/
theorem ne_empty_of_mem_subsets {X : FiniteSet σ} (h : X ∈ A.subsets) : X ≠ ∅ := by
  obtain ⟨hstart, hX⟩ := mem_subsets_iff.1 h
  obtain rfl | ⟨Y, -, hYX⟩ := Relation.ReflTransGen.cases_tail hX
  · exact hstart
  · exact (mem_moves.1 hYX).2

/-- The sets that the search finds consist of states of the automaton. -/
theorem mem_allStates_of_mem_subsets {X : FiniteSet σ} (h : X ∈ A.subsets) :
    ∀ q ∈ X, q ∈ A.allStates := by
  intro q hq
  obtain ⟨-, hX⟩ := mem_subsets_iff.1 h
  obtain rfl | ⟨Y, -, hYX⟩ := Relation.ReflTransGen.cases_tail hX
  · exact mem_allStates_of_mem_startSet hq
  · obtain ⟨⟨c, -, rfl⟩, -⟩ := mem_moves.1 hYX
    exact mem_allStates_of_mem_move hq

/-- The start set occurs. -/
theorem occurs_startSet (A : Automaton σ) : A.Occurs A.startSet := by
  by_cases h : A.startSet = ∅
  · exact .inl h
  · exact .inr (mem_subsets_iff.2 ⟨h, .refl⟩)

/-- The empty set moves to the empty set. -/
theorem move_empty (A : Automaton σ) (c : Char) : A.move ∅ c = ∅ := by
  refine ExtTreeSet.eq_empty_iff_forall_not_mem.2 fun r hr => ?_
  obtain ⟨q, hq, -⟩ := mem_move.1 hr
  exact ExtTreeSet.not_mem_empty hq

/-- What an occurring set moves to on a symbol of the alphabet occurs. -/
theorem Occurs.move {X : FiniteSet σ} (h : A.Occurs X) {c : Char} (hc : c ∈ A.alphabet) :
    A.Occurs (A.move X c) := by
  by_cases hempty : A.move X c = ∅
  · exact .inl hempty
  · obtain rfl | hX := h
    · exact absurd (move_empty A c) hempty
    · obtain ⟨hstart, hreach⟩ := mem_subsets_iff.1 hX
      exact .inr (mem_subsets_iff.2 ⟨hstart, hreach.tail (mem_moves.2 ⟨⟨c, hc, rfl⟩, hempty⟩)⟩)

/-! ## The determinized automaton in terms of sets -/

variable [StateText σ]

/-- Occurring sets that one state stands for are both empty, or both found and of one name. -/
theorem Occurs.eq_empty_or_name_eq {X Y : FiniteSet σ} (hX : A.Occurs X) (hY : A.Occurs Y)
    (hXY : X.stateName = Y.stateName) :
    X = ∅ ∧ Y = ∅ ∨ X ∈ A.subsets ∧ Y ∈ A.subsets ∧ X.name = Y.name := by
  -- The trap is told apart from all names.
  rcases hX with rfl | hX <;> rcases hY with rfl | hY
  · exact .inl ⟨rfl, rfl⟩
  · rw [FiniteSet.stateName_empty,
      FiniteSet.stateName_of_ne_empty (ne_empty_of_mem_subsets hY)] at hXY
    exact absurd hXY.symm (compositeName_ne_trapName _)
  · rw [FiniteSet.stateName_empty,
      FiniteSet.stateName_of_ne_empty (ne_empty_of_mem_subsets hX)] at hXY
    exact absurd hXY (compositeName_ne_trapName _)
  · rw [FiniteSet.stateName_of_ne_empty (ne_empty_of_mem_subsets hX),
      FiniteSet.stateName_of_ne_empty (ne_empty_of_mem_subsets hY)] at hXY
    exact .inr ⟨hX, hY, hXY⟩

/-- Sets that the search found are equal if their names are and names tell sets apart. -/
theorem NamesDistinct.eq_of_name_eq (h : A.NamesDistinct) {X Y : FiniteSet σ} (hX : X ∈ A.subsets)
    (hY : Y ∈ A.subsets) (hXY : X.name = Y.name) : X = Y :=
  h X Y (mem_allStates_of_mem_subsets hX) (mem_allStates_of_mem_subsets hY)
    (ne_empty_of_mem_subsets hX) (ne_empty_of_mem_subsets hY) hXY

/-- A state stands for one occurring set only. -/
theorem NamesDistinct.stateName_inj (h : A.NamesDistinct) {X Y : FiniteSet σ} (hX : A.Occurs X)
    (hY : A.Occurs Y) (hXY : X.stateName = Y.stateName) : X = Y := by
  obtain ⟨rfl, rfl⟩ | ⟨hX, hY, hXY⟩ := hX.eq_empty_or_name_eq hY hXY
  · rfl
  · exact h.eq_of_name_eq hX hY hXY

/-- With names that tell sets apart, a state stands for one occurring set only. -/
theorem NamesDistinct.standsForOne (h : A.NamesDistinct) : A.StandsForOne :=
  fun _ hX _ hY => h.stateName_inj hX hY

/-- If a state stands for one occurring set only, names are coherent. -/
theorem StandsForOne.coherent (h : A.StandsForOne) : A.NamesCoherent := by
  intro X hX Y hY hXY c _
  have heq : X = Y := h (.inr hX) (.inr hY) <| by
    rw [FiniteSet.stateName_of_ne_empty (ne_empty_of_mem_subsets hX),
      FiniteSet.stateName_of_ne_empty (ne_empty_of_mem_subsets hY), hXY]
  rw [heq]

/-- Names that tell sets apart are coherent. -/
theorem NamesDistinct.coherent (h : A.NamesDistinct) : A.NamesCoherent := h.standsForOne.coherent

omit [LawfulEqOrd σ] in
/-- A transition from a set leads to the state that stands for the set moved to. -/
theorem moveName_eq_stateName (A : Automaton σ) (X : FiniteSet σ) (c : Char) :
    A.moveName X c = (A.move X c).stateName := rfl

/-- If names are coherent, occurring sets that one state stands for move to sets that one state
stands for. -/
theorem NamesCoherent.stateName_move_eq (h : A.NamesCoherent) {X Y : FiniteSet σ}
    (hX : A.Occurs X) (hY : A.Occurs Y) (hXY : X.stateName = Y.stateName) {c : Char}
    (hc : c ∈ A.alphabet) : (A.move X c).stateName = (A.move Y c).stateName := by
  obtain ⟨rfl, rfl⟩ | ⟨hX, hY, hXY⟩ := hX.eq_empty_or_name_eq hY hXY
  · rfl
  · exact h X hX Y hY hXY c hc

/-- The transitions lead from the state of an occurring set, on a symbol of the alphabet, to the
state of the set that it moves to. -/
theorem mem_transitions_determinize {t : Transition String} :
    t ∈ A.determinize.transitions ↔ ∃ X, A.Occurs X ∧ ∃ c ∈ A.alphabet,
      t = ⟨X.stateName, .symbol c, (A.move X c).stateName⟩ := by
  rw [determinize, mem_transitions_subsetAutomaton]
  constructor
  · -- The loops at the trap are the moves of the empty set.
    rintro (⟨c, hc, rfl⟩ | ⟨X, hX, c, hc, rfl⟩)
    · refine ⟨∅, .inl rfl, c, hc, ?_⟩
      rw [move_empty, FiniteSet.stateName_empty]
      rfl
    · refine ⟨X, .inr hX, c, hc, ?_⟩
      rw [FiniteSet.stateName_of_ne_empty (ne_empty_of_mem_subsets hX), moveName_eq_stateName]
  · rintro ⟨X, rfl | hX, c, hc, rfl⟩
    · refine .inl ⟨c, hc, ?_⟩
      rw [move_empty, FiniteSet.stateName_empty]
      rfl
    · refine .inr ⟨X, hX, c, hc, ?_⟩
      rw [FiniteSet.stateName_of_ne_empty (ne_empty_of_mem_subsets hX), moveName_eq_stateName]

/-- No transition of the result reads nothing. -/
theorem isEpsilon_determinize {t : Transition String} (h : t ∈ A.determinize.transitions) :
    t.isEpsilon = false := by
  obtain ⟨X, -, c, -, rfl⟩ := mem_transitions_determinize.1 h
  rfl

/-- The only start state is the name of the start set. -/
theorem mem_starts_determinize {q : String} :
    q ∈ A.determinize.starts ↔ A.starts ≠ ∅ ∧ q = A.startSet.stateName := by
  have hstarts : A.determinize.starts =
      if A.startSet.isEmpty then ∅ else ExtTreeSet.ofList [A.startSet.name] := rfl
  rw [hstarts]
  by_cases h : A.startSet = ∅
  · have hnone := startSet_eq_empty_iff.1 h
    simp [h, hnone]
  · rw [if_neg (mt ExtTreeSet.isEmpty_iff.1 h), FiniteSet.mem_ofList_iff, List.mem_singleton,
      FiniteSet.stateName_of_ne_empty h]
    exact (and_iff_right (mt startSet_eq_empty_iff.2 h)).symm

/-- The final states are the names of the sets found that have a final state. -/
theorem mem_finals_determinize {q : String} : q ∈ A.determinize.finals ↔
    ∃ X ∈ A.subsets, (∃ r ∈ X, r ∈ A.finals) ∧ X.name = q := by
  have hfinals : A.determinize.finals =
      ExtTreeSet.ofList ((A.subsets.filter A.hasFinal).map FiniteSet.name) := rfl
  have hfinal {X : FiniteSet σ} : A.hasFinal X = true ↔ ∃ r ∈ X, r ∈ A.finals := by
    simp [hasFinal]
  rw [hfinals, FiniteSet.mem_ofList_iff]
  simp only [List.mem_map, List.mem_filter, hfinal, and_assoc]

/-- Runs start at the name of the start set, if there are start states. -/
theorem startState?_determinize (A : Automaton σ) : A.determinize.startState? =
    if A.starts = ∅ then none else some A.startSet.stateName := by
  split
  · rename_i hstarts
    rw [startState?, List.head?_eq_none_iff, ExtTreeSet.toList_eq_nil_iff,
      ExtTreeSet.eq_empty_iff_forall_not_mem]
    exact fun q hq => (mem_starts_determinize.1 hq).1 hstarts
  · rename_i hstarts
    rw [startState?, FiniteSet.toList_eq_singleton (a := A.startSet.stateName)]
    · rfl
    · intro q
      rw [mem_starts_determinize]
      exact and_iff_right hstarts

/-- Every state of the result, marked ones included, stands for an occurring set. -/
theorem exists_occurs_of_mem_allStates {q : String} (h : q ∈ A.determinize.allStates) :
    ∃ X, A.Occurs X ∧ q = X.stateName := by
  rcases mem_allStates.1 h with h | h | h
  · obtain ⟨t, ht, hq⟩ := mem_states.1 h
    obtain ⟨X, hX, c, hc, rfl⟩ := mem_transitions_determinize.1 ht
    rcases hq with rfl | rfl
    · exact ⟨X, hX, rfl⟩
    · exact ⟨A.move X c, hX.move hc, rfl⟩
  · exact ⟨A.startSet, A.occurs_startSet, (mem_starts_determinize.1 h).2⟩
  · -- A marked state need not be touched by a transition, but it is the name of a set found.
    obtain ⟨X, hX, -, rfl⟩ := mem_finals_determinize.1 h
    exact ⟨X, .inr hX, (FiniteSet.stateName_of_ne_empty (ne_empty_of_mem_subsets hX)).symm⟩

/-- The transition of a state and a symbol of the alphabet is the one to the state of the set moved
to. -/
theorem NamesCoherent.mem_transitions_iff (h : A.NamesCoherent) {X : FiniteSet σ}
    (hX : A.Occurs X) {c : Char} {r : String} :
    (⟨X.stateName, .symbol c, r⟩ : Transition String) ∈ A.determinize.transitions ↔
      c ∈ A.alphabet ∧ r = (A.move X c).stateName := by
  rw [mem_transitions_determinize]
  constructor
  · rintro ⟨Y, hY, d, hd, ht⟩
    obtain ⟨hXY, hcd, hr⟩ := Transition.mk.injEq .. ▸ ht
    obtain rfl := Label.symbol.inj hcd
    exact ⟨hd, hr.trans (h.stateName_move_eq hX hY hXY hd).symm⟩
  · rintro ⟨hc, rfl⟩
    exact ⟨X, hX, c, hc, rfl⟩

/-- Each state and each symbol of the alphabet have exactly one transition. -/
theorem NamesCoherent.existsUnique_transition (h : A.NamesCoherent) {q : String}
    (hq : q ∈ A.determinize.allStates) {c : Char} (hc : c ∈ A.alphabet) :
    ∃! t, t ∈ A.determinize.transitions ∧ t.source = q ∧ t.label = .symbol c := by
  obtain ⟨X, hX, rfl⟩ := exists_occurs_of_mem_allStates hq
  refine ⟨⟨X.stateName, .symbol c, (A.move X c).stateName⟩, ⟨?_, rfl, rfl⟩, ?_⟩
  · exact (h.mem_transitions_iff hX).2 ⟨hc, rfl⟩
  · rintro ⟨q, l, r⟩ ⟨ht, rfl, rfl⟩
    rw [((h.mem_transitions_iff hX).1 ht).2]

/-- With names that tell sets apart, each state and each symbol of the alphabet have exactly one
transition. -/
theorem NamesDistinct.existsUnique_transition (h : A.NamesDistinct) {q : String}
    (hq : q ∈ A.determinize.allStates) {c : Char} (hc : c ∈ A.alphabet) :
    ∃! t, t ∈ A.determinize.transitions ∧ t.source = q ∧ t.label = .symbol c :=
  h.coherent.existsUnique_transition hq hc

/-- The state of an occurring set is final when the set has a final state. -/
theorem StandsForOne.mem_finals_iff (h : A.StandsForOne) {X : FiniteSet σ} (hX : A.Occurs X) :
    X.stateName ∈ A.determinize.finals ↔ ∃ q ∈ X, q ∈ A.finals := by
  rw [mem_finals_determinize]
  constructor
  · -- A marked state is the name of a set with a final state, and of no other occurring set.
    rintro ⟨Y, hY, hfinal, hname⟩
    rw [← FiniteSet.stateName_of_ne_empty (ne_empty_of_mem_subsets hY)] at hname
    obtain rfl := h (.inr hY) hX hname
    exact hfinal
  · rintro ⟨q, hq, hfinal⟩
    rcases hX with rfl | hX
    · exact absurd hq ExtTreeSet.not_mem_empty
    · refine ⟨X, hX, ⟨q, hq, hfinal⟩, ?_⟩
      exact (FiniteSet.stateName_of_ne_empty (ne_empty_of_mem_subsets hX)).symm

/-- With names that tell sets apart, the state of an occurring set is final when the set has a final
state. -/
theorem NamesDistinct.mem_finals_iff (h : A.NamesDistinct) {X : FiniteSet σ} (hX : A.Occurs X) :
    X.stateName ∈ A.determinize.finals ↔ ∃ q ∈ X, q ∈ A.finals :=
  h.standsForOne.mem_finals_iff hX

/-! ## Runs of the determinized automaton -/

/-- Reading a symbol of the alphabet leads to the state of the set moved to. -/
theorem NamesCoherent.toList_moveFrom (h : A.NamesCoherent) {X : FiniteSet σ} (hX : A.Occurs X)
    {c : Char} (hc : c ∈ A.alphabet) :
    (A.determinize.moveFrom X.stateName c).toList = [(A.move X c).stateName] := by
  apply FiniteSet.toList_eq_singleton
  intro r
  rw [mem_moveFrom_of_not_isEpsilon fun t => isEpsilon_determinize, h.mem_transitions_iff hX]
  exact and_iff_right hc

/-- Reading a symbol that is not in the alphabet leads nowhere. -/
theorem NamesCoherent.toList_moveFrom_of_not_mem (h : A.NamesCoherent) {X : FiniteSet σ}
    (hX : A.Occurs X) {c : Char} (hc : c ∉ A.alphabet) :
    (A.determinize.moveFrom X.stateName c).toList = [] := by
  rw [ExtTreeSet.toList_eq_nil_iff, ExtTreeSet.eq_empty_iff_forall_not_mem]
  intro r
  rw [mem_moveFrom_of_not_isEpsilon fun t => isEpsilon_determinize, h.mem_transitions_iff hX]
  exact fun hr => hc hr.1

/-- A run from the state of an occurring set says whether the word is over the alphabet and leads
to a final state from some member. -/
theorem StandsForOne.verdict_run (h : A.StandsForOne) {X : FiniteSet σ} (hX : A.Occurs X)
    (w : List Char) :
    ∃ b, A.determinize.verdict (A.determinize.run X.stateName w).ending = .ok b ∧
      (b = true ↔ (∀ c ∈ w, c ∈ A.alphabet) ∧ ∃ q ∈ w.foldl A.move X, q ∈ A.finals) := by
  induction w generalizing X with
  | nil =>
    refine ⟨_, rfl, ?_⟩
    show X.stateName ∈ A.determinize.finals ↔ _
    rw [h.mem_finals_iff hX]
    simp
  | cons c w ih =>
    by_cases hc : c ∈ A.alphabet
    · obtain ⟨b, hb, hiff⟩ := ih (hX.move hc)
      refine ⟨b, ?_, ?_⟩
      · rw [run, h.coherent.toList_moveFrom hX hc]
        exact hb
      · rw [hiff, List.foldl_cons, List.forall_mem_cons]
        simp only [hc, true_and]
    · -- A symbol outside the alphabet ends the run, and the word is not accepted.
      refine ⟨false, ?_, ?_⟩
      · rw [run, h.coherent.toList_moveFrom_of_not_mem hX hc]
        rfl
      · simp [hc]

/-- The determinized automaton never branches, and it accepts the words over the alphabet that
lead from a start state to a final state. -/
theorem StandsForOne.accept_determinize (h : A.StandsForOne) (w : List Char) :
    ∃ b, A.determinize.accept w = .ok b ∧
      (b = true ↔ (∀ c ∈ w, c ∈ A.alphabet) ∧
        ∃ q ∈ A.starts, ∃ r ∈ A.finals, A.Leads q w r) := by
  by_cases hstarts : A.starts = ∅
  · -- Without a start state nothing is accepted, by either automaton.
    refine ⟨false, by rw [accept, startState?_determinize, if_pos hstarts], ?_⟩
    simp [hstarts]
  · have hsome : A.determinize.startState? = some A.startSet.stateName := by
      rw [startState?_determinize, if_neg hstarts]
    obtain ⟨b, hb, hiff⟩ := h.verdict_run A.occurs_startSet w
    refine ⟨b, by rw [accept, hsome]; exact hb, ?_⟩
    rw [hiff, startSet]
    refine and_congr_right fun _ => ?_
    -- The set that the run stands on holds what the word leads to from the start states.
    constructor
    · rintro ⟨r, hr, hfinal⟩
      obtain ⟨q, hq, hqr⟩ := mem_foldl_move_startSet.1 hr
      exact ⟨q, hq, r, hfinal, hqr⟩
    · rintro ⟨q, hq, r, hfinal, hqr⟩
      exact ⟨r, mem_foldl_move_startSet.2 ⟨q, hq, hqr⟩, hfinal⟩

/-- With names that tell sets apart, the determinized automaton accepts the words over the alphabet
that lead from a start state to a final state. -/
theorem NamesDistinct.accept_determinize (h : A.NamesDistinct) (w : List Char) :
    ∃ b, A.determinize.accept w = .ok b ∧
      (b = true ↔ (∀ c ∈ w, c ∈ A.alphabet) ∧
        ∃ q ∈ A.starts, ∃ r ∈ A.finals, A.Leads q w r) :=
  h.standsForOne.accept_determinize w

/-! ## Main result -/

/-- If the names of sets of states tell them apart, determinization gives a deterministic form of
the automaton. -/
theorem isDeterminization_determinize (A : Automaton σ) (h : A.NamesDistinct) :
    IsDeterminization A A.determinize where
  alphabet_eq := alphabet_determinize A
  isEpsilon_eq_false _ ht := isEpsilon_determinize ht
  existsUnique_transition _ hq _ hc := h.existsUnique_transition hq hc
  starts_eq_empty hstarts := by
    refine ExtTreeSet.eq_empty_iff_forall_not_mem.2 fun q hq => ?_
    exact (mem_starts_determinize.1 hq).1 hstarts
  existsUnique_start hstarts :=
    ⟨_, mem_starts_determinize.2 ⟨hstarts, rfl⟩, fun _ hq => (mem_starts_determinize.1 hq).2⟩
  accept_eq_ok := h.accept_determinize

/-- The names of sets of states tell them apart when no text of a state has a comma. -/
theorem namesDistinct_of_comma_free
    (hinj : Function.Injective (StateText.text : σ → String))
    (h : ∀ q ∈ A.allStates, ',' ∉ (StateText.text q).toList) : A.NamesDistinct := by
  have hnames : NamesIdentify {q | q ∈ A.allStates} := namesIdentify_of_comma_free hinj h
  exact fun X Y hX hY hXne hYne hXY => hnames.injOn_name ⟨hXne, hX⟩ ⟨hYne, hY⟩ hXY

/-- The names of sets of states tell them apart when all states are names of one stem. -/
theorem namesDistinct_of_nameOf {A : Automaton String} (stem : Char)
    (h : ∀ q ∈ A.allStates, ∃ n, Namer.nameOf stem n = q) : A.NamesDistinct := by
  have hnames : NamesIdentify {q | q ∈ A.allStates} := namesIdentify_of_nameOf stem h
  exact fun X Y hX hY hXne hYne hXY => hnames.injOn_name ⟨hXne, hX⟩ ⟨hYne, hY⟩ hXY

/-- An automaton with two start states, an epsilon cycle, a final state that no transition touches
and a transition on a symbol outside the alphabet. -/
def cyclicAutomaton : Automaton String :=
  ((((empty.setAlphabet (ExtTreeSet.ofList ['a', 'b'])).addTransitions
    [⟨"p", .epsilon, "q"⟩, ⟨"q", .epsilon, "p"⟩, ⟨"q", .symbol 'a', "r"⟩, ⟨"p", .symbol 'z', "p"⟩,
      ⟨"r", .symbol 'b', "r"⟩]).markStart "p").markStart "r").markFinal "s" |>.markFinal "r"

/-- The sets of states of this automaton have different names, so its determinization is a
deterministic form of it. -/
theorem isDeterminization_cyclicAutomaton :
    cyclicAutomaton.NamesDistinct ∧
      IsDeterminization cyclicAutomaton cyclicAutomaton.determinize := by
  have hfree : ∀ q ∈ cyclicAutomaton.allStates.toList, ',' ∉ q.toList := by decide +kernel
  have h : cyclicAutomaton.NamesDistinct :=
    namesDistinct_of_comma_free Function.injective_id fun q hq =>
      hfree q (ExtTreeSet.mem_toList.2 hq)
  exact ⟨h, isDeterminization_determinize cyclicAutomaton h⟩

end Automaton

end FiniteAutomata
