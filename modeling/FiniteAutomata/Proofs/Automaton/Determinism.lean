import FiniteAutomata.Proofs.Automaton.SubsetConstruction

/-!
# When determinization is deterministic

The determinized automaton has a transition for each of its states and each symbol, whatever the
texts of the states are. It has only one, and no run on it branches, exactly when the names of the
sets that the search found are coherent (`determinize_deterministic_iff`): two sets with one name
have to move to sets with one name. States whose texts have commas can break this. The sets of `a`
and `b` and of `a,b` alone are searched apart and share the name `{a,b}`
(`not_deterministic_collidingAutomaton`).

A run is *straight* if it does not branch, whatever word it reads. From a straight state each symbol
leads to one state at most, which is straight again. So if runs from the start are straight, they
are straight from every set that the search found, and sets with one name move alike.
-/

namespace FiniteAutomata.Automaton

open Std Search

variable {σ τ : Type} [Ord σ] [TransOrd σ] [Ord τ] [TransOrd τ]

/-- Each state has exactly one transition on each symbol of the alphabet. -/
def HasOneTransition (D : Automaton τ) : Prop :=
  ∀ q ∈ D.states, ∀ c ∈ D.alphabet,
    ∃! t, t ∈ D.transitions ∧ t.source = q ∧ t.label = .symbol c

/-- No word makes the run branch. -/
def NeverBranches (D : Automaton τ) : Prop := ∀ w place, D.accept w ≠ .error place

/-! ## Straight runs -/

/-- No run from a state branches. -/
def Straight (D : Automaton τ) (q : τ) : Prop :=
  ∀ w place, (D.run q w).ending ≠ .branching place

section Straight

variable {D : Automaton τ} {q r s : τ} {c : Char} {w : List Char} {place : Branching τ}

/-- A word is refused with an error when the run on it branches. -/
theorem accept_eq_error_iff : D.accept w = .error place ↔
    ∃ q, D.startState? = some q ∧ (D.run q w).ending = .branching place := by
  cases hstart : D.startState? with
  | none => simp [accept, hstart]
  | some q => cases hend : (D.run q w).ending <;> simp [accept, hstart, hend, verdict]

/-- A state with one state to move to passes the rest of the word on to it. -/
theorem ending_run_cons (h : (D.moveFrom q c).toList = [r]) :
    (D.run q (c :: w)).ending = (D.run r w).ending := by
  rw [run, h]

/-- From a straight state a symbol leads to one state at most. -/
theorem Straight.toList_moveFrom [LawfulEqOrd τ] (h : D.Straight q) (hr : r ∈ D.moveFrom q c) :
    (D.moveFrom q c).toList = [r] := by
  have hmem : r ∈ (D.moveFrom q c).toList := ExtTreeSet.mem_toList.2 hr
  have hstraight := h [c]
  rw [run] at hstraight
  cases hlist : (D.moveFrom q c).toList with
  | nil => simp [hlist] at hmem
  | cons r' rest =>
    cases rest with
    | nil =>
      rw [hlist, List.mem_singleton] at hmem
      rw [hmem]
    | cons r'' rest =>
      rw [hlist] at hstraight
      exact absurd rfl (hstraight _)

/-- From a straight state a symbol leads to a straight state. -/
theorem Straight.of_mem_moveFrom [LawfulEqOrd τ] (h : D.Straight q) (hr : r ∈ D.moveFrom q c) :
    D.Straight r := by
  intro w place
  rw [← ending_run_cons (h.toList_moveFrom hr)]
  exact h (c :: w) place

end Straight

/-! ## Straight runs of the determinized automaton -/

variable [LawfulEqOrd σ] [StateText σ] {A : Automaton σ}

/-- Reading a symbol of the alphabet can lead to the state of the set moved to. -/
theorem stateName_move_mem_moveFrom {X : FiniteSet σ} (hX : A.Occurs X) {c : Char}
    (hc : c ∈ A.alphabet) :
    (A.move X c).stateName ∈ A.determinize.moveFrom X.stateName c := by
  rw [mem_moveFrom_of_not_isEpsilon fun t => isEpsilon_determinize, mem_transitions_determinize]
  exact ⟨X, hX, c, hc, rfl⟩

/-- If runs from the start are straight, they are from every set that the search found. -/
theorem straight_stateName (h : A.determinize.Straight A.startSet.stateName) {X : FiniteSet σ}
    (hX : X ∈ A.subsets) : A.determinize.Straight X.stateName := by
  obtain ⟨hstart, hreach⟩ := mem_subsets_iff.1 hX
  clear hX
  induction hreach with
  | refl => exact h
  | tail hY hYZ ih =>
    obtain ⟨⟨c, hc, rfl⟩, -⟩ := mem_moves.1 hYZ
    exact ih.of_mem_moveFrom (stateName_move_mem_moveFrom (.inr (mem_subsets_iff.2 ⟨hstart, hY⟩)) hc)

/-- If names are coherent, runs from every occurring set are straight. -/
theorem NamesCoherent.straight (h : A.NamesCoherent) {X : FiniteSet σ} (hX : A.Occurs X) :
    A.determinize.Straight X.stateName := by
  intro w
  induction w generalizing X with
  | nil => simp [run]
  | cons c w ih =>
    by_cases hc : c ∈ A.alphabet
    · rw [ending_run_cons (h.toList_moveFrom hX hc)]
      exact ih (hX.move hc)
    · simp [run, h.toList_moveFrom_of_not_mem hX hc]

/-- No run of the determinized automaton branches exactly when names are coherent. -/
theorem neverBranches_determinize_iff : A.determinize.NeverBranches ↔ A.NamesCoherent := by
  constructor
  · intro h X hX Y hY hXY c hc
    have hstarts : A.starts ≠ ∅ := mt startSet_eq_empty_iff.2 (mem_subsets_iff.1 hX).1
    have hstraight : A.determinize.Straight A.startSet.stateName := by
      intro w place hend
      refine h w place (accept_eq_error_iff.2 ⟨_, ?_, hend⟩)
      rw [startState?_determinize, if_neg hstarts]
    -- Both sets are left from the state of their common name, which one symbol leaves in one way.
    have hXmove := stateName_move_mem_moveFrom (.inr hX) hc
    have hYmove := stateName_move_mem_moveFrom (.inr hY) hc
    have hnames : X.stateName = Y.stateName := by
      rw [FiniteSet.stateName_of_ne_empty (ne_empty_of_mem_subsets hX),
        FiniteSet.stateName_of_ne_empty (ne_empty_of_mem_subsets hY), hXY]
    rw [← hnames] at hYmove
    have hlist := ((straight_stateName hstraight hX).toList_moveFrom hXmove).symm.trans
      ((straight_stateName hstraight hX).toList_moveFrom hYmove)
    exact List.singleton_inj.1 hlist
  · intro h w place herror
    obtain ⟨q, hq, hend⟩ := accept_eq_error_iff.1 herror
    rw [startState?_determinize] at hq
    split at hq
    · cases hq
    · obtain rfl := Option.some.inj hq
      exact h.straight A.occurs_startSet w place hend

/-! ## Single transitions -/

/-- Each state of the determinized automaton has a transition on each symbol of the alphabet,
whatever the names of its sets are. -/
theorem exists_transition_determinize {q : String} (hq : q ∈ A.determinize.states) {c : Char}
    (hc : c ∈ A.determinize.alphabet) :
    ∃ t ∈ A.determinize.transitions, t.source = q ∧ t.label = .symbol c := by
  rw [alphabet_determinize] at hc
  obtain ⟨X, hX, rfl⟩ := exists_occurs_of_mem_allStates (mem_allStates.2 (.inl hq))
  exact ⟨_, mem_transitions_determinize.2 ⟨X, hX, c, hc, rfl⟩, rfl, rfl⟩

/-- Each state of the determinized automaton has only one transition on each symbol exactly when
names are coherent. -/
theorem hasOneTransition_determinize_iff :
    A.determinize.HasOneTransition ↔ A.NamesCoherent := by
  rw [HasOneTransition, alphabet_determinize]
  constructor
  · intro h X hX Y hY hXY c hc
    have hXtransition := mem_transitions_determinize.2 ⟨X, .inr hX, c, hc, rfl⟩
    have hYtransition := mem_transitions_determinize.2 ⟨Y, .inr hY, c, hc, rfl⟩
    rw [FiniteSet.stateName_of_ne_empty (ne_empty_of_mem_subsets hX)] at hXtransition
    rw [FiniteSet.stateName_of_ne_empty (ne_empty_of_mem_subsets hY), ← hXY] at hYtransition
    have hstate : X.name ∈ A.determinize.states := mem_states.2 ⟨_, hXtransition, .inl rfl⟩
    have := (h _ hstate c hc).unique ⟨hXtransition, rfl, rfl⟩ ⟨hYtransition, rfl, rfl⟩
    exact congrArg Transition.target this
  · intro h q hq c hc
    exact h.existsUnique_transition (mem_allStates.2 (.inl hq)) hc

/-! ## Main result -/

/-- The determinized automaton has a transition for each state and symbol in every case. It has one
only, and its runs never branch, exactly when the names of its sets are coherent. -/
theorem determinize_deterministic_iff (A : Automaton σ) :
    (∀ q ∈ A.determinize.states, ∀ c ∈ A.determinize.alphabet,
      ∃ t ∈ A.determinize.transitions, t.source = q ∧ t.label = .symbol c) ∧
    (A.determinize.HasOneTransition ↔ A.NamesCoherent) ∧
    (A.determinize.NeverBranches ↔ A.NamesCoherent) :=
  ⟨fun _ hq _ hc => exists_transition_determinize hq hc, hasOneTransition_determinize_iff,
    neverBranches_determinize_iff⟩

/-- The sets of states of the cyclic automaton are told apart, so its determinization is
deterministic. -/
theorem determinize_deterministic_cyclicAutomaton :
    cyclicAutomaton.NamesCoherent ∧ cyclicAutomaton.determinize.HasOneTransition ∧
      cyclicAutomaton.determinize.NeverBranches := by
  have hfree : ∀ q ∈ cyclicAutomaton.allStates.toList, ',' ∉ q.toList := by decide +kernel
  have h : cyclicAutomaton.NamesCoherent :=
    (namesDistinct_of_comma_free Function.injective_id fun q hq =>
      hfree q (ExtTreeSet.mem_toList.2 hq)).coherent
  obtain ⟨-, hone, hnever⟩ := determinize_deterministic_iff cyclicAutomaton
  exact ⟨h, hone.2 h, hnever.2 h⟩

/-- An automaton in which `x` leads to `a` and `b` at once and `y` to `a,b` alone. From `a` it goes
on by `x`, from `a,b` it does not. -/
def collidingAutomaton : Automaton String :=
  ((((empty.setAlphabet (ExtTreeSet.ofList ['x', 'y'])).addTransitions
    [⟨"s", .symbol 'x', "a"⟩, ⟨"s", .symbol 'x', "b"⟩, ⟨"s", .symbol 'y', "a,b"⟩,
      ⟨"a", .symbol 'x', "f"⟩]).markStart "s").markFinal "f")

/-- The state `{a,b}` of its determinization has two transitions on `x`, and reading `xx` branches
there. -/
theorem not_deterministic_collidingAutomaton :
    ¬ collidingAutomaton.determinize.HasOneTransition ∧
      collidingAutomaton.determinize.accept ['x', 'x'] = .error ⟨"{a,b}", 'x', 2⟩ := by
  have htwo : ("{a,b}" ∈ collidingAutomaton.determinize.states ∧
      'x' ∈ collidingAutomaton.determinize.alphabet) ∧
      (⟨"{a,b}", .symbol 'x', "{f}"⟩ : Transition String) ∈
        collidingAutomaton.determinize.transitions ∧
      (⟨"{a,b}", .symbol 'x', "TS"⟩ : Transition String) ∈
        collidingAutomaton.determinize.transitions := by decide +kernel
  constructor
  · intro h
    have := (h _ htwo.1.1 _ htwo.1.2).unique ⟨htwo.2.1, rfl, rfl⟩ ⟨htwo.2.2, rfl, rfl⟩
    exact absurd (congrArg Transition.target this) (by decide)
  · exact accept_eq_error_iff.2 ⟨"{s}", by decide +kernel, by decide +kernel⟩

end FiniteAutomata.Automaton
