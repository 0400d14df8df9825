import FiniteAutomata.Proofs.Automaton.DeadState

/-!
# Determinization of deterministic automata

An automaton that is deterministic already, but for transitions that it lacks, is only completed by
determinization (`determinize_completes`). Each state that can be reached gets braces around its
name, and the trap takes the symbols for which there was no transition. This holds whatever the
names are, with commas and braces in them, the empty name and that of the trap included. What the
result says of words over the alphabet is what the automaton said, and to determinize the result
changes nothing any more that a word can tell.

Names do no harm here since all sets that the search finds have one member
(`Deterministic.eq_single_of_occurs`): the start set has only the start state, and a set with one
member moves to one state or to none. A name between braces can be told from any other, so a state
stands for one set only, which is all that the runs of a determinized automaton need.
-/

namespace FiniteAutomata

open Std

/-! ## Sets with one member -/

section Single

variable {σ : Type} [Ord σ] [TransOrd σ]

/-- The set with one member. -/
def FiniteSet.single (q : σ) : FiniteSet σ := ExtTreeSet.ofList [q]

variable [LawfulEqOrd σ] {X : FiniteSet σ} {q r : σ}

/-- The set with one member has no other. -/
theorem FiniteSet.mem_single : r ∈ single q ↔ r = q := mem_ofList_iff.trans List.mem_singleton

/-- A set whose only member is known is the set with this member. -/
theorem FiniteSet.eq_single (h : ∀ r, r ∈ X ↔ r = q) : X = single q :=
  ExtTreeSet.ext_mem fun r => (h r).trans mem_single.symm

/-- The set with one member has it as its only element in order. -/
theorem FiniteSet.toList_single (q : σ) : (single q).toList = [q] :=
  toList_eq_singleton fun _ => mem_single

/-- The set with one member is not empty. -/
theorem FiniteSet.single_ne_empty (q : σ) : single q ≠ ∅ := ne_empty_of_mem (mem_single.2 rfl)

end Single

/-- A text between braces. -/
def inBraces (text : String) : String := "\x7b" ++ text ++ "\x7d"

/-- What is between braces can be told from the text with them. -/
theorem inBraces_injective : Function.Injective inBraces := by
  intro s t h
  have hlist := congrArg String.toList h
  simp only [inBraces, String.toList_append] at hlist
  exact String.toList_inj.1 (List.append_cancel_left (List.append_cancel_right hlist))

/-- The state of a set with one member is its name between braces. -/
theorem FiniteSet.stateName_single (q : String) : (single q).stateName = inBraces q := by
  rw [stateName_of_ne_empty (single_ne_empty q), name, toList_single]
  rfl

namespace Automaton

variable {σ : Type} [Ord σ] [TransOrd σ]

/-- There is one start state and each transition reads a symbol. No state has two targets under one
symbol, but it may have none. -/
structure Deterministic (A : Automaton σ) : Prop where
  /-- There is one start state. -/
  existsUnique_start : ∃! s, s ∈ A.starts
  /-- No transition reads nothing. -/
  isEpsilon_eq_false : ∀ t ∈ A.transitions, t.isEpsilon = false
  /-- A state has one target at most under each symbol. -/
  target_eq : ∀ q c r r', (⟨q, .symbol c, r⟩ : Transition σ) ∈ A.transitions →
    (⟨q, .symbol c, r'⟩ : Transition σ) ∈ A.transitions → r = r'

/-- A word over the alphabet leads from a start state to the state. -/
def Reached (A : Automaton σ) (q : σ) : Prop :=
  ∃ s ∈ A.starts, ∃ w : List Char, (∀ c ∈ w, c ∈ A.alphabet) ∧ A.Leads s w q

/-- An automaton is another one with braces around the names of its reached states, and with a trap
that it goes to where the other one cannot go on. -/
structure Completes (A D : Automaton String) : Prop where
  /-- The alphabet is the same. -/
  alphabet_eq : D.alphabet = A.alphabet
  /-- The transitions are loops at the trap and, for each reached state and each symbol, the one
  that is there, or else one to the trap. -/
  mem_transitions : ∀ t, t ∈ D.transitions ↔
    (∃ c ∈ A.alphabet, t = ⟨"TS", .symbol c, "TS"⟩) ∨
    ∃ q, A.Reached q ∧ ∃ c ∈ A.alphabet,
      (∃ r, ⟨q, .symbol c, r⟩ ∈ A.transitions ∧ t = ⟨inBraces q, .symbol c, inBraces r⟩) ∨
      ((∀ r, ⟨q, .symbol c, r⟩ ∉ A.transitions) ∧ t = ⟨inBraces q, .symbol c, "TS"⟩)
  /-- The start states are the start states. -/
  mem_starts : ∀ p, p ∈ D.starts ↔ ∃ s ∈ A.starts, p = inBraces s
  /-- The final states are the reached final states. -/
  mem_finals : ∀ p, p ∈ D.finals ↔ ∃ q ∈ A.finals, A.Reached q ∧ p = inBraces q
  /-- No run on a word over the alphabet branches, and the same such words are accepted. -/
  accept_eq : ∀ w : List Char, (∀ c ∈ w, c ∈ A.alphabet) →
    ∃ b, A.accept w = .ok b ∧ D.accept w = .ok b

variable [LawfulEqOrd σ] {A : Automaton σ} {X : FiniteSet σ} {q r s : σ} {c : Char}

/-! ## Deterministic automata -/

namespace Deterministic

/-- A set with one member moves to the state that its transition leads to. -/
theorem move_single (h : A.Deterministic) (ht : ⟨q, .symbol c, r⟩ ∈ A.transitions) :
    A.move (.single q) c = .single r := by
  refine FiniteSet.eq_single fun r' =>
    (mem_moveFrom_of_not_isEpsilon h.isEpsilon_eq_false).trans ⟨fun ht' => ?_, ?_⟩
  · exact h.target_eq q c r' r ht' ht
  · rintro rfl
    exact ht

/-- A set with one member that has no transition moves to the empty set. -/
theorem move_single_eq_empty (h : A.Deterministic)
    (hnone : ∀ r, ⟨q, .symbol c, r⟩ ∉ A.transitions) : A.move (.single q) c = ∅ :=
  ExtTreeSet.eq_empty_iff_forall_not_mem.2 fun r hr =>
    hnone r ((mem_moveFrom_of_not_isEpsilon h.isEpsilon_eq_false).1 hr)

omit [LawfulEqOrd σ] in
/-- A symbol that a transition reads leads to the target of this transition. -/
theorem leads_cons_iff (h : A.Deterministic) (ht : ⟨q, .symbol c, r⟩ ∈ A.transitions)
    {w : List Char} : A.Leads q (c :: w) s ↔ A.Leads r w s := by
  refine (Path.cons_iff_of_not_isEpsilon h.isEpsilon_eq_false).trans ⟨?_, fun hs => ⟨r, ht, hs⟩⟩
  rintro ⟨r', ht', hs⟩
  rwa [h.target_eq q c r r' ht ht']

/-- A run says whether the word leads from its state to a final state. -/
theorem verdict_run (h : A.Deterministic) (q : σ) (w : List Char) :
    ∃ b, A.verdict (A.run q w).ending = .ok b ∧ (b = true ↔ ∃ r ∈ A.finals, A.Leads q w r) := by
  induction w generalizing q with
  | nil =>
    have hleads (r : σ) : A.Leads q [] r ↔ q = r :=
      Path.nil_iff_of_not_isEpsilon h.isEpsilon_eq_false
    refine ⟨A.finals.contains q, rfl, ?_⟩
    simp [hleads]
  | cons c w ih =>
    by_cases hsome : ∃ r, ⟨q, .symbol c, r⟩ ∈ A.transitions
    · obtain ⟨r, ht⟩ := hsome
      have hmove : A.moveFrom q c = .single r := h.move_single ht
      obtain ⟨b, hb, hiff⟩ := ih r
      refine ⟨b, ?_, ?_⟩
      · rw [ending_run_cons (r := r), hb]
        rw [hmove, FiniteSet.toList_single]
      · simp only [hiff, h.leads_cons_iff ht]
    · -- The run is stuck, and the word leads nowhere.
      have hmove : (A.moveFrom q c).toList = [] :=
        ExtTreeSet.toList_eq_nil_iff.2 (h.move_single_eq_empty (not_exists.1 hsome))
      refine ⟨false, ?_, ?_⟩
      · rw [run, hmove]
        rfl
      · simp only [Bool.false_eq_true, false_iff]
        rintro ⟨r, -, hr⟩
        obtain ⟨p, ht, -⟩ := (Path.cons_iff_of_not_isEpsilon h.isEpsilon_eq_false).1 hr
        exact hsome ⟨p, ht⟩

/-- A deterministic automaton accepts its language. -/
theorem accept_eq_ok (h : A.Deterministic) (w : List Char) :
    ∃ b, A.accept w = .ok b ∧ (b = true ↔ w ∈ A.language) := by
  obtain ⟨s, hs, hunique⟩ := h.existsUnique_start
  have hstart : A.startState? = some s := by
    rw [startState?, FiniteSet.toList_eq_singleton (a := s) fun q => ⟨hunique q, fun hq => hq ▸ hs⟩]
    rfl
  obtain ⟨b, hb, hiff⟩ := h.verdict_run s w
  refine ⟨b, by rw [accept, hstart]; exact hb, hiff.trans ⟨fun hr => ⟨s, hs, hr⟩, ?_⟩⟩
  rintro ⟨q, hq, hr⟩
  rwa [← hunique q hq]

end Deterministic

/-- If names are coherent and there is a start state, the determinized automaton is
deterministic. -/
theorem NamesCoherent.deterministic_determinize [StateText σ] (h : A.NamesCoherent)
    (hstarts : A.starts ≠ ∅) : A.determinize.Deterministic where
  existsUnique_start :=
    ⟨_, mem_starts_determinize.2 ⟨hstarts, rfl⟩, fun _ hq => (mem_starts_determinize.1 hq).2⟩
  isEpsilon_eq_false _ ht := isEpsilon_determinize ht
  target_eq := by
    intro q c r r' hr hr'
    obtain ⟨X, hX, d, hd, ht⟩ := mem_transitions_determinize.1 hr
    obtain ⟨rfl, hlabel, rfl⟩ := Transition.mk.injEq .. ▸ ht
    obtain rfl := Label.symbol.inj hlabel
    exact ((h.mem_transitions_iff hX).1 hr').2.symm

/-! ## The sets that the search finds -/

omit [LawfulEqOrd σ] in
/-- The start state is reached. -/
theorem reached_of_mem_starts (hs : s ∈ A.starts) : A.Reached s := ⟨s, hs, [], by simp, .nil s⟩

omit [LawfulEqOrd σ] in
/-- A transition on a symbol of the alphabet leads from a reached state to a reached state. -/
theorem Reached.symbol (hq : A.Reached q) (hc : c ∈ A.alphabet)
    (ht : ⟨q, .symbol c, r⟩ ∈ A.transitions) : A.Reached r := by
  obtain ⟨s, hs, w, hw, hsq⟩ := hq
  refine ⟨s, hs, w ++ [c], ?_, hsq.trans (.symbol ht (.nil r))⟩
  rw [List.forall_mem_append]
  exact ⟨hw, by simpa using hc⟩

namespace Deterministic

/-- The start set has only the start state. -/
theorem startSet_eq (h : A.Deterministic) (hs : s ∈ A.starts) : A.startSet = .single s := by
  refine FiniteSet.eq_single fun r => mem_close.trans ?_
  constructor
  · rintro ⟨q, hq, hqr⟩
    rw [← (Path.nil_iff_of_not_isEpsilon h.isEpsilon_eq_false).1 hqr]
    exact h.existsUnique_start.unique hq hs
  · rintro rfl
    exact ⟨r, hs, .nil r⟩

/-- An occurring set is empty or has a reached state as its only member. -/
theorem eq_single_of_occurs (h : A.Deterministic) (hX : A.Occurs X) :
    X = ∅ ∨ ∃ q, A.Reached q ∧ X = .single q := by
  obtain ⟨s, hs, -⟩ := h.existsUnique_start
  refine hX.induction (P := fun X => X = ∅ ∨ ∃ q, A.Reached q ∧ X = .single q) (.inl rfl)
    (.inr ⟨s, reached_of_mem_starts hs, h.startSet_eq hs⟩) ?_
  rintro X (rfl | ⟨q, hq, rfl⟩) c hc
  · exact .inl (move_empty A c)
  · by_cases hsome : ∃ r, ⟨q, .symbol c, r⟩ ∈ A.transitions
    · obtain ⟨r, ht⟩ := hsome
      exact .inr ⟨r, hq.symbol hc ht, h.move_single ht⟩
    · exact .inl (h.move_single_eq_empty (not_exists.1 hsome))

/-- The set of a reached state occurs. -/
theorem occurs_single (h : A.Deterministic) (hq : A.Reached q) : A.Occurs (.single q) := by
  obtain ⟨s, hs, w, hw, hsq⟩ := hq
  -- The word leads to an occurring set with the state, which has no other member.
  have hmem : q ∈ w.foldl A.move A.startSet := mem_foldl_move_startSet.2 ⟨s, hs, hsq⟩
  have hoccurs := A.occurs_startSet.foldl_move hw
  obtain hempty | ⟨r, -, hr⟩ := h.eq_single_of_occurs hoccurs
  · exact absurd hempty (FiniteSet.ne_empty_of_mem hmem)
  · rw [hr, FiniteSet.mem_single] at hmem
    rwa [hmem, ← hr]

end Deterministic

/-! ## Names -/

namespace Deterministic

variable {A : Automaton String} {q : String}

/-- Single names between braces are told apart, so a state stands for one occurring set only. -/
theorem standsForOne (h : A.Deterministic) : A.StandsForOne := by
  intro X hX Y hY hXY
  obtain rfl | ⟨q, -, rfl⟩ := h.eq_single_of_occurs hX
  · rw [FiniteSet.stateName_empty] at hXY
    exact (FiniteSet.stateName_eq_trapName_iff.1 hXY.symm).symm
  · obtain rfl | ⟨r, -, rfl⟩ := h.eq_single_of_occurs hY
    · rw [FiniteSet.stateName_empty] at hXY
      exact FiniteSet.stateName_eq_trapName_iff.1 hXY
    · rw [FiniteSet.stateName_single, FiniteSet.stateName_single] at hXY
      rw [inBraces_injective hXY]

/-- The transitions of the determinized automaton are those of the automaton and those to the
trap. -/
theorem mem_transitions_iff (h : A.Deterministic) {t : Transition String} :
    t ∈ A.determinize.transitions ↔
      (∃ c ∈ A.alphabet, t = ⟨"TS", .symbol c, "TS"⟩) ∨
      ∃ q, A.Reached q ∧ ∃ c ∈ A.alphabet,
        (∃ r, ⟨q, .symbol c, r⟩ ∈ A.transitions ∧ t = ⟨inBraces q, .symbol c, inBraces r⟩) ∨
        ((∀ r, ⟨q, .symbol c, r⟩ ∉ A.transitions) ∧ t = ⟨inBraces q, .symbol c, "TS"⟩) := by
  rw [mem_transitions_determinize]
  constructor
  · rintro ⟨X, hX, c, hc, rfl⟩
    obtain rfl | ⟨q, hq, rfl⟩ := h.eq_single_of_occurs hX
    · rw [move_empty, FiniteSet.stateName_empty]
      exact .inl ⟨c, hc, rfl⟩
    · rw [FiniteSet.stateName_single]
      refine .inr ⟨q, hq, c, hc, ?_⟩
      by_cases hsome : ∃ r, ⟨q, .symbol c, r⟩ ∈ A.transitions
      · obtain ⟨r, ht⟩ := hsome
        rw [h.move_single ht, FiniteSet.stateName_single]
        exact .inl ⟨r, ht, rfl⟩
      · rw [h.move_single_eq_empty (not_exists.1 hsome), FiniteSet.stateName_empty]
        exact .inr ⟨not_exists.1 hsome, rfl⟩
  · rintro (⟨c, hc, rfl⟩ | ⟨q, hq, c, hc, ⟨r, ht, rfl⟩ | ⟨hnone, rfl⟩⟩)
    · refine ⟨∅, .inl rfl, c, hc, ?_⟩
      rw [move_empty, FiniteSet.stateName_empty]
      rfl
    · refine ⟨.single q, h.occurs_single hq, c, hc, ?_⟩
      rw [h.move_single ht, FiniteSet.stateName_single, FiniteSet.stateName_single]
    · refine ⟨.single q, h.occurs_single hq, c, hc, ?_⟩
      rw [h.move_single_eq_empty hnone, FiniteSet.stateName_single, FiniteSet.stateName_empty]
      rfl

/-- The start state of the determinized automaton is the start state. -/
theorem mem_starts_iff (h : A.Deterministic) {p : String} :
    p ∈ A.determinize.starts ↔ ∃ s ∈ A.starts, p = inBraces s := by
  obtain ⟨s, hs, hunique⟩ := h.existsUnique_start
  rw [mem_starts_determinize, h.startSet_eq hs, FiniteSet.stateName_single]
  constructor
  · rintro ⟨-, rfl⟩
    exact ⟨s, hs, rfl⟩
  · rintro ⟨q, hq, rfl⟩
    exact ⟨FiniteSet.ne_empty_of_mem hs, by rw [hunique q hq]⟩

/-- The final states of the determinized automaton are the reached final states. -/
theorem mem_finals_iff (h : A.Deterministic) {p : String} :
    p ∈ A.determinize.finals ↔ ∃ q ∈ A.finals, A.Reached q ∧ p = inBraces q := by
  constructor
  · intro hp
    obtain ⟨X, hX, rfl⟩ := exists_occurs_of_mem_allStates (mem_allStates.2 (.inr (.inr hp)))
    obtain ⟨q, hqX, hfinal⟩ := (h.standsForOne.mem_finals_iff hX).1 hp
    obtain rfl | ⟨r, hr, rfl⟩ := h.eq_single_of_occurs hX
    · exact absurd hqX ExtTreeSet.not_mem_empty
    · rw [FiniteSet.mem_single] at hqX
      exact ⟨r, hqX ▸ hfinal, hr, FiniteSet.stateName_single r⟩
  · rintro ⟨q, hfinal, hq, rfl⟩
    rw [← FiniteSet.stateName_single, h.standsForOne.mem_finals_iff (h.occurs_single hq)]
    exact ⟨q, FiniteSet.mem_single.2 rfl, hfinal⟩

end Deterministic

/-! ## Main result -/

/-- Words that lead somewhere in the determinized automaton are over the alphabet. -/
theorem mem_alphabet_of_leads_determinize [StateText σ] {w : List Char} {p p' : String}
    (h : A.determinize.Leads p w p') (hc : c ∈ w) : c ∈ A.alphabet := by
  obtain ⟨q, r, ht⟩ := h.exists_mem_of_mem hc
  obtain ⟨X, -, d, hd, heq⟩ := mem_transitions_determinize.1 ht
  obtain ⟨-, hlabel, -⟩ := Transition.mk.injEq .. ▸ heq
  rwa [Label.symbol.inj hlabel]

/-- Determinization of a deterministic automaton changes nothing about a word, if the word is over
the alphabet or not in the language. -/
theorem Deterministic.accept_determinize_eq {A : Automaton String} (h : A.Deterministic)
    {w : List Char} (hw : w ∈ A.language → ∀ c ∈ w, c ∈ A.alphabet) :
    ∃ b, A.accept w = .ok b ∧ A.determinize.accept w = .ok b := by
  obtain ⟨b, hb, hiff⟩ := h.accept_eq_ok w
  obtain ⟨b', hb', hiff'⟩ := h.standsForOne.accept_determinize w
  have heq : b' = b := by
    rw [Bool.eq_iff_iff, hiff, hiff']
    exact ⟨And.right, fun hlanguage => ⟨hw hlanguage, hlanguage⟩⟩
  exact ⟨b, hb, heq ▸ hb'⟩

/-- Determinization of a deterministic automaton puts its names between braces and completes it. The
result is deterministic again, and to determinize it once more changes nothing about any word. -/
theorem determinize_completes (A : Automaton String) (h : A.Deterministic) :
    Completes A A.determinize ∧ A.determinize.Deterministic ∧
      ∀ w, A.determinize.determinize.accept w = A.determinize.accept w := by
  have hstarts : A.starts ≠ ∅ := FiniteSet.ne_empty_of_mem h.existsUnique_start.choose_spec.1
  have hdeterministic := h.standsForOne.coherent.deterministic_determinize hstarts
  refine ⟨?_, hdeterministic, fun w => ?_⟩
  · exact
      { alphabet_eq := alphabet_determinize A
        mem_transitions := fun t => h.mem_transitions_iff
        mem_starts := fun p => h.mem_starts_iff
        mem_finals := fun p => h.mem_finals_iff
        accept_eq := fun w hw => h.accept_determinize_eq fun _ => hw }
  · obtain ⟨b, hb, hb'⟩ := hdeterministic.accept_determinize_eq (w := w) <| by
      rintro ⟨q, -, r, -, hqr⟩ c hc
      rw [alphabet_determinize]
      exact mem_alphabet_of_leads_determinize hqr hc
    rw [hb, hb']

/-- A deterministic automaton whose states have the empty name, names with a comma and with a brace,
and that of the trap. It has a transition on a symbol outside its alphabet and a final state that no
transition touches. -/
def oddlyNamedAutomaton : Automaton String :=
  ((((empty.setAlphabet (ExtTreeSet.ofList ['a', 'b'])).addTransitions
    [⟨"", .symbol 'a', "p,q"⟩, ⟨"p,q", .symbol 'b', "TS"⟩, ⟨"TS", .symbol 'a', "\x7bp"⟩,
      ⟨"\x7bp", .symbol 'z', "q"⟩]).markStart "").markFinal "TS").markFinal "r"

/-- It is only completed. Reading `ab` leads to its own state with the name of the trap, so the word
is accepted before and after. -/
theorem determinize_completes_oddlyNamedAutomaton :
    oddlyNamedAutomaton.Deterministic ∧
      Completes oddlyNamedAutomaton oddlyNamedAutomaton.determinize ∧
      (oddlyNamedAutomaton.determinize.accept ['a', 'b'] = .ok true ∧
        oddlyNamedAutomaton.determinize.determinize.accept ['a', 'b'] = .ok true) := by
  have hparts : oddlyNamedAutomaton.starts.toList = [""] ∧
      (∀ t ∈ oddlyNamedAutomaton.transitions.toList, t.isEpsilon = false) ∧
      ∀ t ∈ oddlyNamedAutomaton.transitions.toList,
        ∀ u ∈ oddlyNamedAutomaton.transitions.toList,
          t.source = u.source → t.label = u.label → t.target = u.target := by decide +kernel
  obtain ⟨hstarts, hepsilon, htarget⟩ := hparts
  have hstart (s : String) : s ∈ oddlyNamedAutomaton.starts ↔ s = "" := by
    rw [← ExtTreeSet.mem_toList, hstarts, List.mem_singleton]
  have hdeterministic : oddlyNamedAutomaton.Deterministic :=
    ⟨⟨"", (hstart "").2 rfl, fun s hs => (hstart s).1 hs⟩,
      fun t ht => hepsilon t (ExtTreeSet.mem_toList.2 ht),
      fun q c r r' ht ht' => htarget _ (ExtTreeSet.mem_toList.2 ht) _
        (ExtTreeSet.mem_toList.2 ht') rfl rfl⟩
  obtain ⟨hcompletes, -, hagain⟩ := determinize_completes oddlyNamedAutomaton hdeterministic
  have hread : (⟨"", .symbol 'a', "p,q"⟩ : Transition String) ∈ oddlyNamedAutomaton.transitions ∧
      (⟨"p,q", .symbol 'b', "TS"⟩ : Transition String) ∈ oddlyNamedAutomaton.transitions ∧
      "TS" ∈ oddlyNamedAutomaton.finals ∧
      'a' ∈ oddlyNamedAutomaton.alphabet ∧ 'b' ∈ oddlyNamedAutomaton.alphabet := by decide +kernel
  obtain ⟨hfirst, hsecond, hfinal, ha, hb⟩ := hread
  have hlanguage : ['a', 'b'] ∈ oddlyNamedAutomaton.language :=
    ⟨"", (hstart "").2 rfl, "TS", hfinal, .symbol hfirst (.symbol hsecond (.nil "TS"))⟩
  obtain ⟨accepted, haccept, hiff⟩ := hdeterministic.accept_eq_ok ['a', 'b']
  obtain rfl := hiff.2 hlanguage
  obtain ⟨accepted, haccept', hdeterminized⟩ := hcompletes.accept_eq ['a', 'b'] (by simp [ha, hb])
  obtain rfl := Except.ok.inj (haccept.symm.trans haccept')
  exact ⟨hdeterministic, hcompletes, hdeterminized, (hagain _).trans hdeterminized⟩

end Automaton

end FiniteAutomata
