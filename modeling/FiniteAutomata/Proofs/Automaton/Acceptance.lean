import FiniteAutomata.Proofs.Automaton.Determinism
import FiniteAutomata.Proofs.Automaton.Renaming
import FiniteAutomata.Proofs.StateText

/-!
# Acceptance after renaming

A function that is injective on the states takes runs to runs: from the image of a state a word
leads to the image of what it leads to from the state, or branches at the image of the place
(`verdict_run_mapStates`). So a renamed automaton says of every word what the automaton said, as
long as its runs start at the image of the start (`accept_mapStates`).

The canonical name of the start comes before all others, so canonical names keep acceptance. An
automaton that keeps its texts is read from the start state with the least text. For texts and
characters this is the least start state, but numbers are not in the order of their numerals
(`accept_renameCanonical`): with `9` and `10` for start states and texts for names, runs start at
`10` instead of `9` (`not_sameVerdicts_twoStartsAutomaton`).

Names of one stem tell sets of states apart, so a canonical renaming can be determinized whatever
the texts of the states were (`accept_determinize_renameCanonical`).
-/

namespace FiniteAutomata

open Std

variable {σ τ : Type}

/-- The place with its state renamed. -/
def Branching.map (f : σ → τ) (place : Branching σ) : Branching τ :=
  ⟨f place.state, place.symbol, place.count⟩

namespace Automaton

variable [Ord σ] [TransOrd σ] [LawfulEqOrd σ] [Ord τ] [TransOrd τ] [LawfulEqOrd τ]
  {A : Automaton σ} {f : σ → τ} {q : σ}

/-! ## Runs of an image -/

/-- The run from the image of a state says of a word what the run from the state says. -/
theorem verdict_run_mapStates (hf : Set.InjOn f A.stateSet) (hq : q ∈ A.stateSet) (w : List Char) :
    (A.mapStates f).verdict ((A.mapStates f).run (f q) w).ending =
      (A.verdict (A.run q w).ending).mapError (Branching.map f) := by
  induction w generalizing q with
  | nil =>
    have hfinal : (A.mapStates f).finals.contains (f q) = A.finals.contains q := by
      rw [Bool.eq_iff_iff, ExtTreeSet.contains_iff_mem, ExtTreeSet.contains_iff_mem,
        map_mem_finals_iff hf hq]
    exact congrArg Except.ok hfinal
  | cons c w ih =>
    have hmem : ∀ r ∈ A.moveFrom q c, r ∈ A.stateSet :=
      fun r hr => mem_stateSet_of_leads hq (mem_moveFrom.1 hr)
    -- There are as many states to go on to from the image, and they are images.
    have hperm := FiniteSet.perm_toList_image (X := A.moveFrom q c) (hf.mono hmem)
    rw [← moveFrom_mapStates hf hq] at hperm
    rw [run, run]
    cases hmoves : (A.moveFrom q c).toList with
    | nil =>
      rw [hmoves] at hperm
      rw [List.perm_nil.1 hperm]
      rfl
    | cons r rest =>
      cases rest with
      | nil =>
        rw [hmoves] at hperm
        rw [List.perm_singleton.1 hperm]
        refine ih (hmem r ?_)
        rw [← ExtTreeSet.mem_toList, hmoves]
        exact .head _
      | cons r' rest =>
        rw [hmoves] at hperm
        have hlength := hperm.length_eq
        rcases himages : ((A.mapStates f).moveFrom (f q) c).toList with _ | ⟨s, _ | ⟨s', rest'⟩⟩
        · simp [himages] at hlength
        · simp [himages] at hlength
        · rw [himages, List.length_map] at hlength
          show Except.error _ = Except.error _
          rw [hlength]
          rfl

/-- A renamed automaton whose runs start at the image of a state says of a word what the run from
this state says. -/
theorem accept_mapStates_of_startState? (hf : Set.InjOn f A.stateSet) (hq : q ∈ A.stateSet)
    (hstart : (A.mapStates f).startState? = some (f q)) (w : List Char) :
    (A.mapStates f).accept w = (A.verdict (A.run q w).ending).mapError (Branching.map f) := by
  rw [accept, hstart]
  exact verdict_run_mapStates hf hq w

/-- A renamed automaton whose runs start at the image of the start says of a word what the automaton
says. -/
theorem accept_mapStates (hf : Set.InjOn f A.stateSet)
    (hstart : (A.mapStates f).startState? = A.startState?.map f) (w : List Char) :
    (A.mapStates f).accept w = (A.accept w).mapError (Branching.map f) := by
  cases hA : A.startState? with
  | none =>
    rw [hA] at hstart
    rw [accept, accept, hA, hstart]
    rfl
  | some q =>
    rw [hA] at hstart
    rw [accept_mapStates_of_startState? hf (mem_stateSet_of_startState? hA) hstart, accept, hA]

/-- Two automata say the same of every word. Where a run branches, both say on which symbol and into
how many states; the place may have another name. -/
def SameVerdicts (A : Automaton σ) (B : Automaton τ) : Prop :=
  ∃ f : σ → τ, ∀ w, B.accept w = (A.accept w).mapError (Branching.map f)

/-! ## Where runs of a renamed automaton start -/

variable [StateText σ]

/-- A start state is the first one by its text. -/
def IsFirstByText (A : Automaton σ) (q : σ) : Prop :=
  q ∈ A.starts ∧ ∀ r ∈ A.starts, (compare (StateText.text q) (StateText.text r)).isLE

/-- Runs of an automaton that keeps its texts start at the first text. -/
theorem IsFirstByText.startState?_mapStates (hq : A.IsFirstByText q) :
    (A.mapStates StateText.text).startState? = some (StateText.text q) := by
  rw [startState?_eq_some_iff]
  refine ⟨FiniteSet.mem_image.2 ⟨q, hq.1, rfl⟩, fun name hname => ?_⟩
  obtain ⟨r, hr, rfl⟩ := FiniteSet.mem_image.1 hname
  exact hq.2 r hr

/-- If texts are in the order of the states, the least start state is the first one by its text. -/
theorem isFirstByText_of_startState?
    (hmono : ∀ q r : σ, compare (StateText.text q) (StateText.text r) = compare q r)
    (hstart : A.startState? = some q) : A.IsFirstByText q := by
  obtain ⟨hmem, hle⟩ := startState?_eq_some_iff.1 hstart
  refine ⟨hmem, fun r hr => ?_⟩
  rw [hmono]
  exact hle r hr

/-- An automaton that keeps its texts says of a word what the run from the first start state by its
text says. -/
theorem IsFirstByText.accept_eq (hinj : Function.Injective (StateText.text : σ → String))
    (hq : A.IsFirstByText q) (hA : ¬ A.Nameable) (stem : Char) (w : List Char) :
    (A.renameCanonical stem).accept w =
      (A.verdict (A.run q w).ending).mapError (Branching.map StateText.text) := by
  rw [renameCanonical_of_not_nameable hA]
  exact accept_mapStates_of_startState? hinj.injOn (mem_stateSet_of_mem_starts hq.1)
    hq.startState?_mapStates w

/-- Canonical names keep what an automaton says of words. -/
theorem Nameable.sameVerdicts (hA : A.Nameable) (stem : Char) :
    A.SameVerdicts (A.renameCanonical stem) := by
  obtain ⟨start, hstart⟩ := hA.exists_startState?
  refine ⟨A.canonicalName start stem, fun w => ?_⟩
  rw [hA.renameCanonical_eq hstart]
  refine accept_mapStates (injOn_canonicalName (mem_stateSet_of_startState? hstart)) ?_ w
  rw [startState?_mapStates_canonicalName hstart, hstart, Option.map_some, canonicalName_start]

/-- Texts keep what an automaton says of words if the least start state is the first one by its
text. -/
theorem sameVerdicts_of_isFirstByText (hinj : Function.Injective (StateText.text : σ → String))
    (h : ∀ q, A.startState? = some q → A.IsFirstByText q) (hA : ¬ A.Nameable) (stem : Char) :
    A.SameVerdicts (A.renameCanonical stem) := by
  refine ⟨StateText.text, fun w => ?_⟩
  rw [renameCanonical_of_not_nameable hA]
  refine accept_mapStates hinj.injOn ?_ w
  cases hstart : A.startState? with
  | none =>
    rw [Option.map_none, startState?_eq_none_iff, starts_mapStates, FiniteSet.image_eq_empty_iff]
    exact startState?_eq_none_iff.1 hstart
  | some q => exact (h q hstart).startState?_mapStates

/-- Canonical renaming keeps what an automaton says of words, if the least start state is the first
one by its text or names are given. -/
theorem sameVerdicts_of_nameable_or (hinj : Function.Injective (StateText.text : σ → String))
    (h : A.Nameable ∨ ∀ q, A.startState? = some q → A.IsFirstByText q) (stem : Char) :
    A.SameVerdicts (A.renameCanonical stem) := by
  by_cases hA : A.Nameable
  · exact hA.sameVerdicts stem
  · exact sameVerdicts_of_isFirstByText hinj (h.resolve_left hA) hA stem

/-! ## Main results -/

/-- Over texts and characters canonical renaming keeps what an automaton says of words. Over numbers
it does so if names are given or the least start state has the first numeral; otherwise the renamed
automaton says what the run from the start state with the first numeral says. -/
theorem accept_renameCanonical (stem : Char) :
    (∀ A : Automaton String, A.SameVerdicts (A.renameCanonical stem)) ∧
      (∀ A : Automaton Char, A.SameVerdicts (A.renameCanonical stem)) ∧
      ∀ A : Automaton Int,
        (A.Nameable ∨ (∀ q, A.startState? = some q → A.IsFirstByText q) →
          A.SameVerdicts (A.renameCanonical stem)) ∧
        (¬ A.Nameable → ∀ q, A.IsFirstByText q → ∀ w, (A.renameCanonical stem).accept w =
          (A.verdict (A.run q w).ending).mapError (Branching.map StateText.text)) := by
  refine ⟨fun A => ?_, fun A => ?_, fun A => ⟨fun h => ?_, fun hA q hq w => ?_⟩⟩
  · exact sameVerdicts_of_nameable_or Function.injective_id
      (.inr fun _ => isFirstByText_of_startState? fun _ _ => rfl) stem
  · exact sameVerdicts_of_nameable_or text_char_injective
      (.inr fun _ => isFirstByText_of_startState? compare_text_char) stem
  · exact sameVerdicts_of_nameable_or text_int_injective h stem
  · exact hq.accept_eq text_int_injective hA stem w

/-- An automaton with two start states, of which one is final, and without transitions. -/
def twoStartsAutomaton : Automaton Int := ((empty.markStart 9).markStart 10).markFinal 10

/-- It keeps its texts, and the empty word is refused by number and accepted by numeral. -/
theorem not_sameVerdicts_twoStartsAutomaton :
    ¬ twoStartsAutomaton.SameVerdicts (twoStartsAutomaton.renameCanonical 'q') := by
  rintro ⟨f, h⟩
  have hnumber : (twoStartsAutomaton.accept []).toOption = some false := by decide +kernel
  have hnumeral : ((twoStartsAutomaton.renameCanonical 'q').accept []).toOption = some true := by
    decide +kernel
  rw [h []] at hnumeral
  cases haccept : twoStartsAutomaton.accept [] with
  | ok b =>
    rw [haccept] at hnumber hnumeral
    cases hnumber.symm.trans hnumeral
  | error place =>
    rw [haccept] at hnumber
    contradiction

/-- Names are given to the states of the mixed automaton, so they say of each word what its numbers
say. The automaton with two start states is read from `10` after renaming. -/
theorem accept_renameCanonical_mixedAutomaton :
    (mixedAutomaton.Nameable ∧ mixedAutomaton.SameVerdicts (mixedAutomaton.renameCanonical 'q')) ∧
      ¬ twoStartsAutomaton.Nameable ∧ twoStartsAutomaton.IsFirstByText 10 ∧
        ∀ w, (twoStartsAutomaton.renameCanonical 'q').accept w =
          (twoStartsAutomaton.verdict (twoStartsAutomaton.run 10 w).ending).mapError
            (Branching.map StateText.text) := by
  obtain ⟨-, -, hnumbers⟩ := accept_renameCanonical 'q'
  have hmixed : mixedAutomaton.Nameable :=
    ⟨by decide +kernel, by decide +kernel, by decide +kernel⟩
  have hnone : ¬ twoStartsAutomaton.Nameable := fun h => h.transitions_ne_empty (by decide +kernel)
  have hle : ∀ r ∈ twoStartsAutomaton.starts.toList,
      (compare (StateText.text (10 : Int)) (StateText.text r)).isLE := by decide +kernel
  have hfirst : twoStartsAutomaton.IsFirstByText 10 :=
    ⟨by decide +kernel, fun r hr => hle r (ExtTreeSet.mem_toList.2 hr)⟩
  exact ⟨⟨hmixed, (hnumbers mixedAutomaton).1 (.inl hmixed)⟩, hnone, hfirst,
    (hnumbers twoStartsAutomaton).2 hnone 10 hfirst⟩

/-- A canonical renaming is determinized without branching, and the result accepts the words over
the alphabet that lead from a start state to a final state, whatever the texts of the states are. -/
theorem accept_determinize_renameCanonical (A : Automaton σ) (hA : A.Nameable) (stem : Char)
    (w : List Char) :
    ∃ b, (A.renameCanonical stem).determinize.accept w = .ok b ∧
      (b = true ↔ (∀ c ∈ w, c ∈ A.alphabet) ∧
        ∃ q ∈ A.starts, ∃ r ∈ A.finals, A.Leads q w r) := by
  obtain ⟨start, hstart⟩ := hA.exists_startState?
  have hmem := mem_stateSet_of_startState? hstart
  have hf : Set.InjOn (A.canonicalName start stem) A.stateSet := injOn_canonicalName hmem
  rw [hA.renameCanonical_eq hstart]
  -- All states of the renamed automaton are names of one stem.
  have hnames : (A.mapStates (A.canonicalName start stem)).NamesDistinct := by
    refine namesDistinct_of_nameOf stem fun name hname => ?_
    obtain ⟨q, hq, rfl⟩ := mem_allStates_mapStates.1 hname
    obtain ⟨n, -, hn⟩ := (image_canonicalName hmem).subset (Set.mem_image_of_mem _ hq)
    exact ⟨n, hn⟩
  obtain ⟨b, hb, hiff⟩ := hnames.accept_determinize w
  refine ⟨b, hb, hiff.trans (and_congr (by rw [alphabet_mapStates]) ?_)⟩
  constructor
  · rintro ⟨_, hq', _, hr', h⟩
    obtain ⟨q, hq, rfl⟩ := FiniteSet.mem_image.1 hq'
    obtain ⟨r, hr, rfl⟩ := FiniteSet.mem_image.1 hr'
    exact ⟨q, hq, r, hr, (leads_mapStates_iff hf (mem_stateSet_of_mem_starts hq)
      (mem_stateSet_of_mem_finals hr)).1 h⟩
  · rintro ⟨q, hq, r, hr, h⟩
    exact ⟨_, FiniteSet.mem_image.2 ⟨q, hq, rfl⟩, _, FiniteSet.mem_image.2 ⟨r, hr, rfl⟩,
      (leads_mapStates_iff hf (mem_stateSet_of_mem_starts hq)
        (mem_stateSet_of_mem_finals hr)).2 h⟩

/-- Two of the sets of the colliding automaton have one name. Its canonical renaming is determinized
without branching, even if names begin with a comma, and accepts `xx`. -/
theorem accept_determinize_renameCanonical_collidingAutomaton :
    collidingAutomaton.Nameable ∧
      (collidingAutomaton.renameCanonical ',').determinize.accept ['x', 'x'] = .ok true := by
  have hA : collidingAutomaton.Nameable :=
    ⟨by decide +kernel, by decide +kernel, by decide +kernel⟩
  obtain ⟨b, hb, hiff⟩ := accept_determinize_renameCanonical collidingAutomaton hA ',' ['x', 'x']
  obtain ⟨hfirst, hsecond⟩ :
      (⟨"s", .symbol 'x', "a"⟩ : Transition String) ∈ collidingAutomaton.transitions ∧
        (⟨"a", .symbol 'x', "f"⟩ : Transition String) ∈ collidingAutomaton.transitions := by
    decide +kernel
  have hpath : collidingAutomaton.Leads "s" ['x', 'x'] "f" :=
    .symbol hfirst (.symbol hsecond (.nil "f"))
  have hsymbol : 'x' ∈ collidingAutomaton.alphabet := by decide +kernel
  have haccept : b = true := hiff.2
    ⟨by simp [hsymbol], "s", by decide +kernel, "f", by decide +kernel, hpath⟩
  exact ⟨hA, haccept ▸ hb⟩

end Automaton

end FiniteAutomata
