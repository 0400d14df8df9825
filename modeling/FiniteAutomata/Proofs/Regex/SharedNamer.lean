import FiniteAutomata.Proofs.Automaton.Map
import FiniteAutomata.Proofs.Regex.Compile

/-!
# Automata that share a namer

Texts may be built in turn with one namer. It goes on with its names from one text to the next, also
after a text that is not read or whose automaton cannot be built (`precedes_build`). An automaton
that is built has only names for its states that were new before and are handed out after
(`handedOut_of_build`), so no two of the automata have a state in common, and no name that the namer
hands out later is a state of any of them (`pairwise_disjoint_buildInTurn`).
-/

namespace FiniteAutomata.Regex

variable {n : Namer} {source : String} {sources : List String} {A : Automaton String} {q : String}

/-- Builds the automaton of a text with the names of a namer. It comes with the namer that is left,
which has handed out the names that were used, in a failed construction too. -/
def build (n : Namer) (source : String) : Namer × Except Error (Automaton String) :=
  match parse source with
  | .error e => (n, .error e)
  | .ok r => ((r.construct n).namer, (r.construct n).outcome.mapError .malformed)

/-- Builds the automata of texts in turn, each with the namer that the one before it has left. -/
def buildInTurn (n : Namer) : List String → Namer × List (Except Error (Automaton String))
  | [] => (n, [])
  | source :: rest =>
    let first := build n source
    let others := buildInTurn first.1 rest
    (others.1, first.2 :: others.2)

/-! ## One text -/

/-- Names are handed out for a text, or the namer stays what it was. -/
theorem precedes_build (n : Namer) (source : String) : n.Precedes (build n source).1 := by
  unfold build
  split
  · exact .refl n
  · rename_i r hr
    exact Builder.precedes_construct ⟨n, []⟩ 0 r.postfixTokens

/-- The automaton that is built for a text is that of the fragment of a tree, whose names the namer
hands out. -/
theorem exists_fragment_of_build (h : (build n source).2 = .ok A) :
    ∃ (e : Tree) (symbols : FiniteSet Char), (build n source).1 = e.namerAfter n ∧
      A = (e.fragment n).toAutomaton.setAlphabet symbols := by
  unfold build at h ⊢
  split at h
  · contradiction
  · rename_i r hr
    cases hB : (r.construct n).outcome with
    | error m =>
      rw [hB] at h
      contradiction
    | ok B =>
      rw [hB] at h
      obtain rfl := Except.ok.inj h
      obtain ⟨e, he, rfl⟩ := exists_fragment_of_construct hr hB
      exact ⟨e, r.alphabet, namer_construct_of_hasTree hr he n, rfl⟩

/-- The states of the automaton bear names that were new, and that have been handed out since. -/
theorem handedOut_of_build (h : (build n source).2 = .ok A) (hq : q ∈ A.stateSet) :
    (build n source).1.HandedOut q ∧ ¬ n.HandedOut q := by
  obtain ⟨e, symbols, hnamer, rfl⟩ := exists_fragment_of_build h
  have hpart := e.isPart_fragment n
  have htouches := Fragment.touches_of_mem_allStates hpart.toHasEnds hq
  rw [hnamer]
  exact ⟨hpart.named q htouches, Tree.not_handedOut_of_touches htouches⟩

/-! ## Texts in turn -/

/-- Names are handed out for the texts, or the namer stays what it was. -/
theorem precedes_buildInTurn (n : Namer) (sources : List String) :
    n.Precedes (buildInTurn n sources).1 := by
  induction sources generalizing n with
  | nil => exact .refl n
  | cons source rest ih => exact (precedes_build n source).trans (ih _)

/-- The states of all automata bear names that were new at the beginning, and that have been handed
out at the end. -/
theorem handedOut_of_mem_buildInTurn (h : .ok A ∈ (buildInTurn n sources).2)
    (hq : q ∈ A.stateSet) : (buildInTurn n sources).1.HandedOut q ∧ ¬ n.HandedOut q := by
  induction sources generalizing n with
  | nil => exact absurd h List.not_mem_nil
  | cons source rest ih =>
    rcases List.mem_cons.1 h with h | h
    · obtain ⟨hused, hnew⟩ := handedOut_of_build h.symm hq
      exact ⟨(precedes_buildInTurn _ rest).handedOut hused, hnew⟩
    · obtain ⟨hused, hnew⟩ := ih h
      exact ⟨hused, mt (precedes_build n source).handedOut hnew⟩

/-- Automata that are built in turn with one namer have no state in common, whichever texts between
them are refused, and no name that is handed out later is a state of any of them. -/
theorem pairwise_disjoint_buildInTurn (n : Namer) (sources : List String) :
    (buildInTurn n sources).2.Pairwise (fun X Y => ∀ A B, X = .ok A → Y = .ok B →
      Disjoint A.stateSet B.stateSet) ∧
    ∀ A, .ok A ∈ (buildInTurn n sources).2 → ∀ count,
      ((buildInTurn n sources).1.advance count).name ∉ A.stateSet := by
  constructor
  · induction sources generalizing n with
    | nil => exact .nil
    | cons source rest ih =>
      refine .cons ?_ (ih _)
      -- The later automata have names that were new after the first one was built.
      rintro _ hB A B hA rfl
      refine Set.disjoint_left.2 fun q hqA hqB => ?_
      exact (handedOut_of_mem_buildInTurn hB hqB).2 (handedOut_of_build hA hqA).1
  · intro A hA count hname
    exact Namer.not_handedOut_advance _ count (handedOut_of_mem_buildInTurn hA hname).1

/-- Four texts with one namer, of which the second is not read and the third has an operator without
enough operands: names are used for it before it fails. -/
theorem pairwise_disjoint_buildInTurn_refused :
    ∃ A B misread malformed, (buildInTurn ⟨'S', 7⟩ ["a|b", "(", "ab|", "c*"]).2 =
        [.ok A, .error misread, .error malformed, .ok B] ∧
      A.startState? = some "S11" ∧ B.startState? = some "S19" ∧
      Disjoint A.stateSet B.stateSet ∧
      ∀ count, (Namer.advance ⟨'S', 21⟩ count).name ∉ A.stateSet := by
  obtain ⟨A, B, misread, malformed, hbuilt, hnamer, hA, hB⟩ :
      ∃ A B misread malformed, (buildInTurn ⟨'S', 7⟩ ["a|b", "(", "ab|", "c*"]).2 =
          [.ok A, .error misread, .error malformed, .ok B] ∧
        (buildInTurn ⟨'S', 7⟩ ["a|b", "(", "ab|", "c*"]).1 = ⟨'S', 21⟩ ∧
        A.startState? = some "S11" ∧ B.startState? = some "S19" := by
    refine ⟨_, _, _, _, rfl, rfl, ?_, ?_⟩ <;> decide +kernel
  obtain ⟨hdisjoint, hlater⟩ := pairwise_disjoint_buildInTurn ⟨'S', 7⟩ ["a|b", "(", "ab|", "c*"]
  rw [hbuilt] at hdisjoint hlater
  rw [hnamer] at hlater
  have hAB := (List.pairwise_cons.1 hdisjoint).1 (.ok B) (by simp) A B rfl rfl
  exact ⟨A, B, misread, malformed, hbuilt, hA, hB, hAB, hlater A (.head _)⟩

end FiniteAutomata.Regex
