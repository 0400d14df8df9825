import FiniteAutomata.Proofs.Automaton.NameIndependence
import FiniteAutomata.Proofs.Regex.Printing
import FiniteAutomata.Proofs.Regex.Similar

/-!
# Canonical forms of expressions

The states of the fragment of a tree are names of one stem, which tell sets apart. So
interchangeable trees have automata that are determinized to the same canonical form, whatever the
names of the states are (`Tree.Interchangeable.renameCanonical_determinize_eq`).

Since a tree can be interchanged with itself, the namer of an expression does not show in the
canonical form (`renameCanonical_determinize_independent`). Neither do the order of the operands of
unions and the grouping of concatenations, anywhere in the tree
(`renameCanonical_determinize_rearranges`).
-/

namespace FiniteAutomata.Regex

open Std

namespace Tree

variable {d e : Tree}

/-! ## The automaton of a fragment of a tree -/

/-- The names of the states of a fragment tell sets apart. -/
theorem namesDistinct_fragment (e : Tree) (n : Namer) (symbols : FiniteSet Char) :
    ((e.fragment n).toAutomaton.setAlphabet symbols).NamesDistinct := by
  refine Automaton.namesDistinct_of_nameOf (e.namerAfter n).stem fun q hq => ?_
  have hpart := e.isPart_fragment n
  obtain ⟨i, -, hi⟩ := hpart.named q (Fragment.touches_of_mem_allStates hpart.toHasEnds hq)
  exact ⟨i, hi.symm⟩

/-- Over the symbols of the tree the determinized automaton has a transition and a final state. -/
theorem ne_empty_determinize_fragment (e : Tree) (n : Namer) {symbols : FiniteSet Char}
    (hsymbols : ∀ c, .symbol c ∈ e.postorder → c ∈ symbols) :
    ((e.fragment n).toAutomaton.setAlphabet symbols).determinize.transitions ≠ ∅ ∧
      ((e.fragment n).toAutomaton.setAlphabet symbols).determinize.finals ≠ ∅ := by
  obtain ⟨c, hc⟩ := e.exists_symbol_mem_postorder
  obtain ⟨w, hw⟩ := e.exists_mem_language
  have hlanguage : w ∈ (e.fragment n).toAutomaton.language := by
    rwa [Fragment.language_toAutomaton, (e.denotes_fragment n).language_eq]
  obtain ⟨q, hq, r, hr, hqr⟩ := hlanguage
  exact ⟨Automaton.transitions_determinize_ne_empty (hsymbols c hc),
    (e.namesDistinct_fragment n symbols).finals_determinize_ne_empty
      (fun c hc => hsymbols c (symbol_mem_postorder hw hc)) hq hr hqr⟩

/-- Interchangeable trees have one canonical form, whatever the names of the states are. -/
theorem Interchangeable.renameCanonical_determinize_eq (h : Interchangeable d e)
    {symbols : FiniteSet Char} (hsymbols : ∀ c, .symbol c ∈ d.postorder → c ∈ symbols)
    (n m : Namer) (stem : Char) :
    ((d.fragment n).toAutomaton.setAlphabet symbols).determinize.renameCanonical stem =
      ((e.fragment m).toAutomaton.setAlphabet symbols).determinize.renameCanonical stem := by
  obtain ⟨rename, hinj, heq⟩ :=
    (h n m).exists_mapStates_eq (d.isPart_fragment n).toHasEnds symbols
  have hnames := e.namesDistinct_fragment m symbols
  obtain ⟨htransitions, hfinals⟩ := d.ne_empty_determinize_fragment n hsymbols
  rw [← heq] at hnames ⊢
  exact (Automaton.renameCanonical_determinize_mapStates hinj (d.namesDistinct_fragment n symbols)
    hnames htransitions hfinals stem).symm

end Tree

/-! ## Rearranged trees -/

/-- Trees that differ only by the order of the operands of unions and the grouping of
concatenations, at any number of places and any depth. -/
inductive Tree.Rearranges : Tree → Tree → Prop where
  /-- Nothing is rearranged. -/
  | refl (e : Tree) : Rearranges e e
  /-- What was rearranged is put back. -/
  | symm {d e : Tree} (h : Rearranges d e) : Rearranges e d
  /-- One rearrangement follows another. -/
  | trans {d e f : Tree} (h : Rearranges d e) (h' : Rearranges e f) : Rearranges d f
  /-- The operands of a union are swapped. -/
  | union_comm (d e : Tree) : Rearranges (.union d e) (.union e d)
  /-- A concatenation that is grouped to the left is grouped to the right. -/
  | concat_assoc (d e f : Tree) : Rearranges (.concat (.concat d e) f) (.concat d (.concat e f))
  /-- The operands of a union are rearranged. -/
  | union {d d' e e' : Tree} (h : Rearranges d d') (h' : Rearranges e e') :
      Rearranges (.union d e) (.union d' e')
  /-- The operands of a concatenation are rearranged. -/
  | concat {d d' e e' : Tree} (h : Rearranges d d') (h' : Rearranges e e') :
      Rearranges (.concat d e) (.concat d' e')
  /-- The operand of a star is rearranged. -/
  | star {e e' : Tree} (h : Rearranges e e') : Rearranges (.star e) (.star e')
  /-- The operand of a plus is rearranged. -/
  | plus {e e' : Tree} (h : Rearranges e e') : Rearranges (.plus e) (.plus e')

namespace Tree.Rearranges

variable {d e : Tree}

/-- Rearranged trees have the same symbols. -/
theorem symbol_mem_iff (h : Rearranges d e) {c : Char} :
    .symbol c ∈ d.postorder ↔ .symbol c ∈ e.postorder := by
  induction h with
  | refl => exact Iff.rfl
  | symm _ ih => exact ih.symm
  | trans _ _ ih ih' => exact ih.trans ih'
  | union_comm | concat_assoc =>
    simp only [postorder, List.mem_append, List.mem_singleton, reduceCtorEq, or_false]
    tauto
  | union _ _ ih ih' | concat _ _ ih ih' => simp [postorder, ih, ih']
  | star _ ih | plus _ ih => simp [postorder, ih]

/-- Rearranged trees can be interchanged. -/
theorem interchangeable (h : Rearranges d e) : Interchangeable d e := by
  induction h with
  | refl e => exact .refl e
  | symm _ ih => exact ih.symm
  | trans _ _ ih ih' => exact ih.trans ih'
  | union_comm d e => exact .union_comm d e
  | concat_assoc d e f => exact .concat_assoc d e f
  | union _ _ ih ih' => exact ih.union ih'
  | concat _ _ ih ih' => exact ih.concat ih'
  | star _ ih => exact ih.star
  | plus _ ih => exact ih.plus

end Tree.Rearranges

/-! ## Main results -/

/-- The canonical form of a determinized automaton does not depend on how the states are named, if
names tell sets apart before and after. The names of the states of an expression are of this kind,
so all namers lead to one canonical form. -/
theorem renameCanonical_determinize_independent :
    (∀ {σ τ : Type} [Ord σ] [TransOrd σ] [LawfulEqOrd σ] [StateText σ] [Ord τ] [TransOrd τ]
      [LawfulEqOrd τ] [StateText τ] (A : Automaton σ) (f : σ → τ), Set.InjOn f A.stateSet →
      A.NamesDistinct → (A.mapStates f).NamesDistinct → A.determinize.transitions ≠ ∅ →
      A.determinize.finals ≠ ∅ → ∀ stem, A.determinize.renameCanonical stem =
        (A.mapStates f).determinize.renameCanonical stem) ∧
    ∀ source r A, parse source = .ok r → r.toAutomaton = .ok A → ∀ n m, ∃ B C,
      (r.construct n).outcome = .ok B ∧ (r.construct m).outcome = .ok C ∧
        ∀ stem, B.determinize.renameCanonical stem = C.determinize.renameCanonical stem := by
  constructor
  · intro σ τ _ _ _ _ _ _ _ _ A f hf h h' htransitions hfinals stem
    exact (Automaton.renameCanonical_determinize_mapStates hf h h' htransitions hfinals stem).symm
  · intro source r A hr hA n m
    obtain ⟨e, -, he, -⟩ := exists_fragment_of_toAutomaton hr hA
    refine ⟨_, _, outcome_construct_of_hasTree hr he n, outcome_construct_of_hasTree hr he m, ?_⟩
    rw [← (exists_tokens_of_parse hr).1] at he
    exact (Tree.Interchangeable.refl e).renameCanonical_determinize_eq
      (fun c => he.mem_alphabet_iff.2) n m

/-- The state `p` of the cyclic automaton may get a name that comes last instead of first, and the
automata of one text may be named by any two namers. -/
theorem renameCanonical_determinize_cyclicAutomaton :
    (∃ f : String → String, f "p" = "z" ∧
      Automaton.cyclicAutomaton.determinize.renameCanonical 'q' =
        (Automaton.cyclicAutomaton.mapStates f).determinize.renameCanonical 'q') ∧
    ∃ r B C, parse "(a|b)*c" = .ok r ∧ (r.construct ⟨'S', 9⟩).outcome = .ok B ∧
      (r.construct ⟨',', 3⟩).outcome = .ok C ∧
        B.determinize.renameCanonical 'q' = C.determinize.renameCanonical 'q' := by
  obtain ⟨hrenaming, hnamers⟩ := renameCanonical_determinize_independent
  constructor
  · let A := Automaton.cyclicAutomaton
    let f (q : String) : String := if q = "p" then "z" else q
    have hinj : ∀ q ∈ A.allStates.toList, ∀ r ∈ A.allStates.toList, f q = f r → q = r := by
      decide +kernel
    have hfree : ∀ q ∈ A.allStates.toList, ',' ∉ q.toList := by decide +kernel
    have hfree' : ∀ q ∈ (A.mapStates f).allStates.toList, ',' ∉ q.toList := by decide +kernel
    refine ⟨f, rfl, hrenaming A f ?_ ?_ ?_ (by decide +kernel) (by decide +kernel) 'q'⟩
    · exact fun q hq r hr =>
        hinj q (ExtTreeSet.mem_toList.2 hq) r (ExtTreeSet.mem_toList.2 hr)
    · exact Automaton.namesDistinct_of_comma_free Function.injective_id fun q hq =>
        hfree q (ExtTreeSet.mem_toList.2 hq)
    · exact Automaton.namesDistinct_of_comma_free Function.injective_id fun q hq =>
        hfree' q (ExtTreeSet.mem_toList.2 hq)
  · obtain ⟨r, A, hr, hA⟩ : ∃ r A, parse "(a|b)*c" = .ok r ∧ r.toAutomaton = .ok A :=
      ⟨_, _, rfl, rfl⟩
    obtain ⟨B, C, hB, hC, heq⟩ := hnamers _ r A hr hA ⟨'S', 9⟩ ⟨',', 3⟩
    exact ⟨r, B, C, hr, hB, hC, heq 'q'⟩

/-- Texts can be written for rearranged trees over letters, and all texts with these trees compile
to automata of which the determinized ones have the same canonical form. -/
theorem renameCanonical_determinize_rearranges {d e : Tree} (h : d.Rearranges e)
    (hd : d.OverLetters) :
    HasTree d.text d ∧ HasTree e.text e ∧
      ∀ source source', HasTree source d → HasTree source' e → ∃ A B, compile source = .ok A ∧
        compile source' = .ok B ∧
          ∀ stem, A.determinize.renameCanonical stem = B.determinize.renameCanonical stem := by
  have he : e.OverLetters := fun c hc => hd c (h.symbol_mem_iff.2 hc)
  refine ⟨Tree.hasTree_text hd, Tree.hasTree_text he, fun source source' hsource hsource' => ?_⟩
  obtain ⟨symbols, hsymbols, hA⟩ := compile_of_hasTree hsource
  obtain ⟨symbols', hsymbols', hB⟩ := compile_of_hasTree hsource'
  -- The texts have the same letters, so the automata have the same alphabet.
  obtain rfl : symbols = symbols' := ExtTreeSet.ext_mem fun c => by
    rw [hsymbols, hsymbols', h.symbol_mem_iff]
  exact ⟨_, _, hA, hB, h.interchangeable.renameCanonical_determinize_eq
    (fun c => (hsymbols c).2) stateNamer stateNamer⟩

/-- Two texts whose trees differ by a swap under a star and by the grouping of a concatenation. -/
theorem renameCanonical_determinize_rearranges_star :
    ∃ d e : Tree, d.Rearranges e ∧ d.OverLetters ∧ d.text = "(a|b)*ca" ∧ e.text = "(b|a)*(ca)" ∧
      ∃ A B, compile "(a|b)*ca" = .ok A ∧ compile "(b|a)*(ca)" = .ok B ∧
        A.determinize.renameCanonical 'q' = B.determinize.renameCanonical 'q' := by
  let repeated (left right : Tree) : Tree := .star (.union left right)
  let d : Tree := .concat (.concat (repeated (.symbol 'a') (.symbol 'b')) (.symbol 'c'))
    (.symbol 'a')
  let e : Tree := .concat (repeated (.symbol 'b') (.symbol 'a'))
    (.concat (.symbol 'c') (.symbol 'a'))
  have h : d.Rearranges e :=
    (Tree.Rearranges.concat_assoc ..).trans (.concat (.star (.union_comm ..)) (.refl _))
  have hd : d.OverLetters := by
    intro c hc
    have hc : c = 'a' ∨ c = 'b' ∨ c = 'c' ∨ c = 'a' := by
      simpa [d, repeated, Tree.postorder] using hc
    rcases hc with rfl | rfl | rfl | rfl <;> decide +kernel
  obtain ⟨hd', he', heq⟩ := renameCanonical_determinize_rearranges h hd
  obtain ⟨A, B, hA, hB, heq⟩ := heq _ _ hd' he'
  exact ⟨d, e, h, hd, rfl, rfl, A, B, hA, hB, heq 'q'⟩

end FiniteAutomata.Regex
