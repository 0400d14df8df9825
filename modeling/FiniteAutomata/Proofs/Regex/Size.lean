import FiniteAutomata.Proofs.Automaton.SubsetCount
import FiniteAutomata.Proofs.Regex.Compile

/-!
# The size of compiled automata

Reading an expression keeps each occurrence of a letter, and the construction makes one transition
of it; all other transitions read nothing. A determinization therefore finds the start set and, for
a letter that occurs `n` times, `2 ^ n - 1` sets at most (`size_determinize_of_toAutomaton`). If no
letter is repeated this is one set for each letter, however many operators there are.
-/

namespace FiniteAutomata.Regex

open Std

/-! ## Occurrences of a letter -/

/-- A letter occurs in the written tokens as often as its symbol occurs among them. -/
theorem Token.count_render {c : Char} (hc : Unicode.isAlphabetic c = true) (ts : List Token) :
    (Token.render ts).toList.count c = ts.count (.symbol c) := by
  rw [Token.render, String.toList_ofList, List.count_eq_countP, List.countP_map,
    List.count_eq_countP]
  refine List.countP_congr fun t _ => ?_
  rw [Function.comp_apply, beq_iff_eq, beq_iff_eq]
  constructor
  · rintro rfl
    exact Token.eq_symbol_of_isAlphabetic hc
  · rintro rfl
    rfl

/-- A letter occurs in an expression as often as its symbol occurs in the tree. -/
theorem HasTree.count_eq {source : String} {e : Tree} (h : HasTree source e) {c : Char}
    (hc : Unicode.isAlphabetic c = true) :
    source.toList.count c = e.postorder.count (.symbol c) := by
  obtain ⟨ts, -, rfl, hphrase⟩ := h
  rw [Token.count_render hc, hphrase.count_symbol]

/-- The automaton of the fragment of a tree enters no more states on a symbol than the symbol
occurs. -/
theorem Tree.size_entered_fragment (e : Tree) (n : Namer) (symbols : FiniteSet Char) (c : Char) :
    (((e.fragment n).toAutomaton.setAlphabet symbols).entered c).size ≤
      e.postorder.count (.symbol c) := by
  rw [← e.countP_transitions_fragment n, List.countP_eq_length_filter,
    ← List.length_map (f := Transition.target)]
  refine FiniteSet.size_le_length fun q hq => ?_
  obtain ⟨p, ht⟩ := Automaton.mem_entered.1 hq
  have hmem := Fragment.mem_transitions_toAutomaton.1 ht
  exact List.mem_map.2 ⟨_, List.mem_filter.2 ⟨hmem, decide_eq_true rfl⟩, rfl⟩

/-! ## Main result -/

/-- For each letter of an expression, a determinization expands as many sets at most as there are
non-empty sets of occurrences of the letter, and the start set besides. The states but the trap are
no more than these sets. If no letter is repeated there is one for each letter at most, and the
start state. -/
theorem size_determinize_of_toAutomaton {source : String} {r : Regex} {A : Automaton String}
    (hr : parse source = .ok r) (hA : r.toAutomaton = .ok A) :
    A.subsets.length ≤ 1 + ∑ c ∈ r.alphabet.toFinset, (2 ^ source.toList.count c - 1) ∧
      {q | q ∈ A.determinize.stateSet ∧ q ≠ trapName}.ncard ≤ A.subsets.length ∧
      ((∀ c ∈ r.alphabet, source.toList.count c ≤ 1) →
        {q | q ∈ A.determinize.stateSet ∧ q ≠ trapName}.ncard ≤ 1 + r.alphabet.size) := by
  obtain ⟨e, he, rfl⟩ := exists_fragment_of_construct hr hA
  set B := (e.fragment stateNamer).toAutomaton.setAlphabet r.alphabet
  have hbound (c : Char) (hc : c ∈ r.alphabet.toFinset) :
      2 ^ (B.entered c).size - 1 ≤ 2 ^ source.toList.count c - 1 := by
    have hletter : Unicode.isAlphabetic c = true :=
      (List.mem_filter.1 (FiniteSet.mem_ofList_iff.1 (FiniteSet.mem_toFinset.1 hc))).2
    rw [he.count_eq hletter]
    have hsize := e.size_entered_fragment stateNamer r.alphabet c
    exact Nat.sub_le_sub_right (Nat.pow_le_pow_right Nat.two_pos hsize) 1
  have hlength : B.subsets.length ≤
      1 + ∑ c ∈ r.alphabet.toFinset, (2 ^ source.toList.count c - 1) :=
    B.length_subsets_le_sum.trans (Nat.add_le_add_left (Finset.sum_le_sum hbound) 1)
  refine ⟨hlength, B.ncard_states_determinize_le, fun honce => ?_⟩
  have hone (c : Char) (hc : c ∈ r.alphabet.toFinset) : 2 ^ source.toList.count c - 1 ≤ 1 :=
    Nat.sub_le_sub_right
      (Nat.pow_le_pow_right Nat.two_pos (honce c (FiniteSet.mem_toFinset.1 hc))) 1
  calc {q | q ∈ B.determinize.stateSet ∧ q ≠ trapName}.ncard
    _ ≤ B.subsets.length := B.ncard_states_determinize_le
    _ ≤ 1 + ∑ c ∈ r.alphabet.toFinset, (2 ^ source.toList.count c - 1) := hlength
    _ ≤ 1 + ∑ _c ∈ r.alphabet.toFinset, 1 :=
      Nat.add_le_add_left (Finset.sum_le_sum hone) 1
    _ = 1 + r.alphabet.size := by rw [← Finset.card_eq_sum_ones, FiniteSet.card_toFinset]

/-- A letter that occurs twice counts for three sets. Without repeated letters there is a state for
each of two letters at most, under any operators, and the start state. -/
theorem size_determinize_of_toAutomaton_pair :
    (∃ r A, parse "(a|b)*a" = .ok r ∧ r.toAutomaton = .ok A ∧ A.subsets.length ≤ 5) ∧
    ∃ r A, parse "(a+|b)*" = .ok r ∧ r.toAutomaton = .ok A ∧
      (∀ c ∈ r.alphabet, "(a+|b)*".toList.count c ≤ 1) ∧
      {q | q ∈ A.determinize.stateSet ∧ q ≠ trapName}.ncard ≤ 3 := by
  constructor
  · obtain ⟨r, A, hr, hA, hsum⟩ : ∃ r A, parse "(a|b)*a" = .ok r ∧ r.toAutomaton = .ok A ∧
        ∑ c ∈ r.alphabet.toFinset, (2 ^ "(a|b)*a".toList.count c - 1) = 4 := by
      refine ⟨_, _, rfl, rfl, ?_⟩
      decide +kernel
    have hlength := (size_determinize_of_toAutomaton hr hA).1
    rw [hsum] at hlength
    exact ⟨r, A, hr, hA, hlength⟩
  · obtain ⟨r, A, hr, hA, hletters⟩ : ∃ r A, parse "(a+|b)*" = .ok r ∧ r.toAutomaton = .ok A ∧
        r.alphabet.toList = ['a', 'b'] := by
      refine ⟨_, _, rfl, rfl, ?_⟩
      decide +kernel
    have hsize : r.alphabet.size = 2 := by rw [← ExtTreeSet.length_toList, hletters]; rfl
    have honce : ∀ c ∈ r.alphabet, "(a+|b)*".toList.count c ≤ 1 := by
      intro c hc
      rw [← ExtTreeSet.mem_toList, hletters, List.mem_pair] at hc
      rcases hc with rfl | rfl <;> decide
    have hstates := (size_determinize_of_toAutomaton hr hA).2.2 honce
    rw [hsize] at hstates
    exact ⟨r, A, hr, hA, honce, hstates⟩

end FiniteAutomata.Regex
