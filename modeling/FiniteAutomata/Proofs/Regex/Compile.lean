import FiniteAutomata.Regex.Basic
import FiniteAutomata.Proofs.Automaton.SubsetConstruction
import FiniteAutomata.Proofs.Regex.Balance
import FiniteAutomata.Proofs.Regex.TreeFragment

/-!
# From texts to deterministic automata

The passes from a text to its automaton are put together. A text compiles exactly when it is an
expression (`exists_compile_iff_hasTree`), and the determinized automaton then accepts the language
of its syntax tree (`accept_determinize_toAutomaton`).

In one direction an expression has its tokens put in postfix order, from which the construction
gives a fragment of its tree. In the other direction a construction that succeeds leaves one tree,
which by the balance of operands only an expression does; the tree of that expression is then the
one that was left.
-/

namespace FiniteAutomata.Regex

open Std

/-! ## Tokens of a text -/

/-- A character that is read as a symbol is a letter, and that symbol. -/
theorem Token.eq_of_ofChar?_eq_symbol {c d : Char} (h : Token.ofChar? c = some (.symbol d)) :
    c = d ∧ Unicode.isAlphabetic d = true := by
  obtain rfl : d = c := Token.toChar_of_ofChar? h
  refine ⟨rfl, ?_⟩
  by_contra hd
  unfold Token.ofChar? at h
  split_ifs at h <;> simp_all

/-- A token is read from the character that it is written as, a symbol only if it is a letter. -/
theorem Token.ofChar?_toChar {t : Token} (h : ∀ c, t = .symbol c → Unicode.isAlphabetic c = true) :
    Token.ofChar? t.toChar = some t := by
  cases t with
  | symbol c => exact Token.ofChar?_of_isAlphabetic (h c rfl)
  | opening => rfl
  | closing => rfl
  | operator o => cases o <;> rfl

/-- A token that is written as a letter is a symbol: none of the signs is a letter. -/
theorem Token.eq_symbol_of_isAlphabetic {t : Token} (h : Unicode.isAlphabetic t.toChar = true) :
    t = .symbol t.toChar := by
  have hread := Token.ofChar?_of_isAlphabetic h
  cases t with
  | symbol c => rfl
  | opening | closing => contradiction
  | operator o => cases o <;> contradiction

/-- Tokens are told apart by their characters, if their symbols are letters. -/
theorem Token.toChar_inj {t u : Token} (ht : ∀ c, t = .symbol c → Unicode.isAlphabetic c = true)
    (hu : ∀ c, u = .symbol c → Unicode.isAlphabetic c = true) (h : t.toChar = u.toChar) :
    t = u := by
  have hread := ofChar?_toChar ht
  rw [h, ofChar?_toChar hu] at hread
  exact (Option.some.inj hread).symm

/-- Tokens are read from the characters that they are written as, if their symbols are letters, and
from no others. -/
theorem tokenizeFrom_eq_ok_iff {position : ℕ} {cs : List Char} {ts : List Token} :
    tokenizeFrom position cs = .ok ts ↔
      (∀ c, .symbol c ∈ ts → Unicode.isAlphabetic c = true) ∧ ts.map Token.toChar = cs := by
  induction cs generalizing position ts with
  | nil =>
    constructor
    · intro h
      obtain rfl := Except.ok.inj h
      exact ⟨fun c hc => absurd hc List.not_mem_nil, rfl⟩
    · rintro ⟨_, h⟩
      rw [List.map_eq_nil_iff.1 h]
      rfl
  | cons c cs ih =>
    constructor
    · intro h
      unfold tokenizeFrom at h
      split at h
      · contradiction
      · rename_i t ht
        cases hrest : tokenizeFrom (position + 1) cs with
        | error e =>
          rw [hrest] at h
          contradiction
        | ok rest =>
          rw [hrest] at h
          obtain rfl := Except.ok.inj h
          obtain ⟨hletters, hcs⟩ := ih.1 hrest
          constructor
          · intro d hd
            rcases List.mem_cons.1 hd with rfl | hd
            · exact (Token.eq_of_ofChar?_eq_symbol ht).2
            · exact hletters d hd
          · rw [List.map_cons, hcs, Token.toChar_of_ofChar? ht]
    · rintro ⟨hletters, h⟩
      obtain ⟨t, rest, rfl, rfl, hrest⟩ := List.map_eq_cons_iff.1 h
      have ht := Token.ofChar?_toChar fun d hd => hletters d (hd ▸ .head _)
      have hcs : tokenizeFrom (position + 1) _ = .ok rest :=
        ih.2 ⟨fun d hd => hletters d (.tail _ hd), hrest⟩
      unfold tokenizeFrom
      rw [ht, hcs]
      rfl

/-- The tokens of a text are those that it is written with, and their symbols are letters. -/
theorem tokenize_eq_ok_iff {source : String} {ts : List Token} :
    tokenize source = .ok ts ↔
      (∀ c, .symbol c ∈ ts → Unicode.isAlphabetic c = true) ∧ Token.render ts = source := by
  unfold tokenize Token.render
  rw [tokenizeFrom_eq_ok_iff, ← String.toList_inj, String.toList_ofList]

/-! ## Texts that are read -/

/-- A text is read if it has tokens and their parentheses match. What is kept are the tokens with
every concatenation explicit, and these in postfix order. -/
theorem parse_eq_ok_iff {source : String} {r : Regex} :
    parse source = .ok r ↔ r.source = source ∧ ∃ ts, tokenize source = .ok ts ∧
      r.concatenated = insertConcatenation ts ∧ toPostfix r.concatenated = .ok r.postfixTokens := by
  constructor
  · intro h
    unfold parse at h
    split at h
    · contradiction
    · rename_i ts hts
      dsimp only at h
      split at h
      · contradiction
      · rename_i ps hps
        obtain rfl := Except.ok.inj h
        exact ⟨rfl, ts, hts, rfl, hps⟩
  · obtain ⟨_, concatenated, postfixTokens⟩ := r
    rintro ⟨rfl, ts, hts, rfl, hps⟩
    simp only [parse, hts, hps]

/-- A text that is read has tokens, and what was read are these in postfix order. -/
theorem exists_tokens_of_parse {source : String} {r : Regex} (h : parse source = .ok r) :
    r.source = source ∧ ∃ ts, (∀ c, .symbol c ∈ ts → Unicode.isAlphabetic c = true) ∧
      Token.render ts = source ∧ toPostfix (insertConcatenation ts) = .ok r.postfixTokens := by
  obtain ⟨hsource, ts, hts, hconcatenated, hps⟩ := parse_eq_ok_iff.1 h
  obtain ⟨hletters, hrender⟩ := tokenize_eq_ok_iff.1 hts
  exact ⟨hsource, ts, hletters, hrender, hconcatenated ▸ hps⟩

/-- The letters of a text are the symbols among its tokens. -/
theorem mem_alphabet_iff {r : Regex} {ts : List Token} (h : tokenize r.source = .ok ts) {c : Char} :
    c ∈ r.alphabet ↔ .symbol c ∈ ts := by
  obtain ⟨hletters, hrender⟩ := tokenize_eq_ok_iff.1 h
  rw [alphabet, FiniteSet.mem_ofList_iff, List.mem_filter, ← hrender, Token.render,
    String.toList_ofList, List.mem_map]
  constructor
  · rintro ⟨⟨t, ht, rfl⟩, hletter⟩
    rwa [← Token.eq_symbol_of_isAlphabetic hletter]
  · intro hc
    exact ⟨⟨_, hc, rfl⟩, hletters c hc⟩

/-- An expression is read, and its tree determines its tokens in postfix order. -/
theorem parse_of_hasTree {source : String} {e : Tree} (h : HasTree source e) :
    ∃ r, parse source = .ok r ∧ r.postfixTokens = e.postorder := by
  obtain ⟨ts, hletters, hrender, hphrase⟩ := h
  have hts : tokenize source = .ok ts := tokenize_eq_ok_iff.2 ⟨hletters, hrender⟩
  refine ⟨⟨source, insertConcatenation ts, e.postorder⟩, ?_, rfl⟩
  simp only [parse, hts, toPostfix_of_phrase hphrase]

/-- A text has one syntax tree at most. -/
theorem HasTree.unique {source : String} {d e : Tree} (hd : HasTree source d)
    (he : HasTree source e) : d = e := by
  obtain ⟨ts, hletters, hrender, hd⟩ := hd
  obtain ⟨us, hletters', hrender', he⟩ := he
  have hts : tokenize source = .ok ts := tokenize_eq_ok_iff.2 ⟨hletters, hrender⟩
  have hus : tokenize source = .ok us := tokenize_eq_ok_iff.2 ⟨hletters', hrender'⟩
  obtain rfl : ts = us := Except.ok.inj (hts.symm.trans hus)
  exact hd.tree_unique he

/-- The letters of a text are the symbols of its tree. -/
theorem HasTree.mem_alphabet_iff {r : Regex} {e : Tree} (h : HasTree r.source e) {c : Char} :
    c ∈ r.alphabet ↔ .symbol c ∈ e.postorder := by
  obtain ⟨ts, hletters, hrender, hphrase⟩ := h
  rw [Regex.mem_alphabet_iff (tokenize_eq_ok_iff.2 ⟨hletters, hrender⟩), hphrase.symbol_mem_iff]

/-- A letter of the words that an expression stands for is a letter of the text. -/
theorem HasTree.mem_alphabet {r : Regex} {e : Tree} (h : HasTree r.source e) {w : List Char}
    (hw : w ∈ e.language) {c : Char} (hc : c ∈ w) : c ∈ r.alphabet :=
  h.mem_alphabet_iff.2 (Tree.symbol_mem_postorder hw hc)

/-! ## The automaton of a text -/

/-- The automaton of a fragment has the transitions of the fragment. -/
theorem Fragment.mem_transitions_toAutomaton {f : Fragment} {t : Transition String} :
    t ∈ f.toAutomaton.transitions ↔ t ∈ f.transitions := by
  have hempty : t ∉ (Automaton.empty : Automaton String).transitions := by simp [Automaton.empty]
  show t ∈ (Automaton.empty.addTransitions f.transitions).transitions ↔ _
  rw [Automaton.mem_transitions_addTransitions]
  exact or_iff_right hempty

/-- The automaton of a fragment starts at its entry. -/
theorem Fragment.mem_starts_toAutomaton {f : Fragment} {q : String} :
    q ∈ f.toAutomaton.starts ↔ q = f.start := by
  show q ∈ (Automaton.empty.addTransitions f.transitions).starts.insert f.start ↔ _
  rw [Automaton.starts_addTransitions, FiniteSet.mem_insert_iff]
  simp [Automaton.empty]

/-- The automaton of a fragment accepts at its exit. -/
theorem Fragment.mem_finals_toAutomaton {f : Fragment} {q : String} :
    q ∈ f.toAutomaton.finals ↔ q = f.accept := by
  show q ∈ (Automaton.empty.addTransitions f.transitions).finals.insert f.accept ↔ _
  rw [Automaton.finals_addTransitions, FiniteSet.mem_insert_iff]
  simp [Automaton.empty]

/-- The automaton of a fragment has the language of the fragment. -/
theorem Fragment.language_toAutomaton (f : Fragment) :
    f.toAutomaton.language = f.language := by
  have htransitions : {t | t ∈ f.toAutomaton.transitions} = {t | t ∈ f.transitions} :=
    Set.ext fun _ => mem_transitions_toAutomaton
  ext w
  rw [Automaton.mem_language_iff_leads (fun _ => mem_starts_toAutomaton)
    fun _ => mem_finals_toAutomaton, Automaton.Leads, htransitions]
  rfl

/-- The states of the automaton of a fragment are those of the fragment. -/
theorem Fragment.touches_of_mem_allStates {f : Fragment} (h : f.HasEnds) {q : String}
    (hq : q ∈ f.toAutomaton.allStates) : f.Touches q := by
  rw [Automaton.mem_allStates, Automaton.mem_states, mem_starts_toAutomaton,
    mem_finals_toAutomaton] at hq
  rcases hq with ⟨t, ht, hq⟩ | rfl | rfl
  · exact ⟨t, mem_transitions_toAutomaton.1 ht, hq⟩
  · exact h.start
  · exact h.accept

/-- The automaton of an expression is what the construction gives, over the letters of the text. -/
theorem outcome_of_construct_eq_ok {r : Regex} {n : Namer} {A : Automaton String}
    (h : (r.construct n).outcome = .ok A) : ∃ B, (thompson r.postfixTokens n).outcome = .ok B ∧
      A = B.setAlphabet r.alphabet := by
  unfold construct at h
  dsimp only at h
  cases houtcome : (thompson r.postfixTokens n).outcome with
  | error m =>
    rw [houtcome] at h
    contradiction
  | ok B =>
    rw [houtcome] at h
    exact ⟨B, rfl, (Except.ok.inj h).symm⟩

/-- If there is no automaton then the construction failed. -/
theorem outcome_of_toAutomaton_eq_error {r : Regex} {m : Malformed}
    (h : r.toAutomaton = .error m) :
    (thompson r.postfixTokens stateNamer).outcome = .error m := by
  unfold toAutomaton construct at h
  dsimp only at h
  cases houtcome : (thompson r.postfixTokens stateNamer).outcome with
  | error m' =>
    rw [houtcome] at h
    rw [Except.error.inj h]
  | ok B =>
    rw [houtcome] at h
    contradiction

/-- A text from which some namer constructs an automaton is an expression. -/
theorem exists_hasTree_of_construct {source : String} {r : Regex} {n : Namer} {A : Automaton String}
    (hr : parse source = .ok r) (hA : (r.construct n).outcome = .ok A) : ∃ e, HasTree source e := by
  obtain ⟨-, ts, hletters, hrender, hps⟩ := exists_tokens_of_parse hr
  obtain ⟨B, houtcome, -⟩ := outcome_of_construct_eq_ok hA
  -- One tree is left, as it only is if the text is an expression.
  obtain ⟨d, hd⟩ := (Builder.Represents.empty n).construct_ok houtcome
  obtain ⟨e, hphrase⟩ := exists_phrase_of_foldlM_push hps hd
  exact ⟨e, ts, hletters, hrender, hphrase⟩

/-- The construction for a text gives the automaton of its tree with the names of any namer. -/
theorem outcome_construct_of_hasTree {source : String} {r : Regex} {e : Tree}
    (hr : parse source = .ok r) (he : HasTree source e) (n : Namer) :
    (r.construct n).outcome = .ok ((e.fragment n).toAutomaton.setAlphabet r.alphabet) := by
  obtain ⟨r', hr', hpost⟩ := parse_of_hasTree he
  obtain rfl : r' = r := Except.ok.inj (hr'.symm.trans hr)
  show (thompson r'.postfixTokens n).outcome.map _ = _
  rw [hpost, (construct_postorder e n).2]
  rfl

/-- The names that come after the construction for a text come after those of its tree. -/
theorem namer_construct_of_hasTree {source : String} {r : Regex} {e : Tree}
    (hr : parse source = .ok r) (he : HasTree source e) (n : Namer) :
    (r.construct n).namer = e.namerAfter n := by
  obtain ⟨r', hr', hpost⟩ := parse_of_hasTree he
  obtain rfl : r' = r := Except.ok.inj (hr'.symm.trans hr)
  show (thompson r'.postfixTokens n).namer = _
  rw [hpost, (construct_postorder e n).1]

/-- An automaton that is constructed for a text is that of the fragment of a tree of the text. -/
theorem exists_fragment_of_construct {source : String} {r : Regex} {n : Namer}
    {A : Automaton String} (hr : parse source = .ok r) (hA : (r.construct n).outcome = .ok A) :
    ∃ e, HasTree source e ∧ A = (e.fragment n).toAutomaton.setAlphabet r.alphabet := by
  obtain ⟨e, he⟩ := exists_hasTree_of_construct hr hA
  exact ⟨e, he, Except.ok.inj (hA.symm.trans (outcome_construct_of_hasTree hr he n))⟩

/-- A text whose automaton can be built is an expression, and its automaton is that of a fragment of
its tree whose names have no comma. -/
theorem exists_fragment_of_toAutomaton {source : String} {r : Regex} {A : Automaton String}
    (hr : parse source = .ok r) (hA : r.toAutomaton = .ok A) :
    ∃ e f, HasTree source e ∧ Fragment.Denotes f e ∧ (∀ q, f.Touches q → ',' ∉ q.toList) ∧
      A = f.toAutomaton.setAlphabet r.alphabet := by
  obtain ⟨e, he, rfl⟩ := exists_fragment_of_construct hr hA
  refine ⟨e, _, he, e.denotes_fragment stateNamer, fun q hq => ?_, rfl⟩
  obtain ⟨i, -, rfl⟩ := (e.isPart_fragment stateNamer).named q hq
  rw [(e.precedes_namerAfter stateNamer).stem_eq]
  exact Namer.not_mem_toList_nameOf (by decide) (by decide) i

/-- A text that is read but whose automaton cannot be built has an operator without enough
operands. -/
theorem misfit_of_toAutomaton {source : String} {r : Regex} {m : Malformed}
    (hr : parse source = .ok r) (hm : r.toAutomaton = .error m) : m.misfit = .missingOperand := by
  obtain ⟨_, ts, _, _, hps⟩ := exists_tokens_of_parse hr
  have houtcome := outcome_of_toAutomaton_eq_error hm
  have hfree : ∀ t ∈ r.postfixTokens, t.isParenthesis = false := by
    intro t ht
    have hmem := (perm_of_toPostfix hps).mem_iff.1 ht
    simpa [withoutParentheses] using (List.mem_filter.1 hmem).2
  rcases ((Builder.Represents.empty stateNamer).construct_error houtcome).2 hfree with h | h
  · exact h
  · -- More than one tree is never left.
    obtain ⟨trees, htrees, hlength⟩ := h
    have := length_le_one_of_foldlM_push hps htrees
    omega

/-- A text that compiles is an expression. -/
theorem hasTree_of_compile {source : String} {A : Automaton String} (h : compile source = .ok A) :
    ∃ e, HasTree source e := by
  unfold compile at h
  split at h
  · contradiction
  · rename_i r hr
    cases hB : r.toAutomaton with
    | error m =>
      rw [hB] at h
      contradiction
    | ok B =>
      obtain ⟨e, f, he, _⟩ := exists_fragment_of_toAutomaton hr hB
      exact ⟨e, he⟩

/-- A text is compiled to the automaton of its tree over the symbols of the tree. -/
theorem compile_of_hasTree {source : String} {e : Tree} (he : HasTree source e) :
    ∃ symbols : FiniteSet Char, (∀ c, c ∈ symbols ↔ .symbol c ∈ e.postorder) ∧
      compile source = .ok ((e.fragment stateNamer).toAutomaton.setAlphabet symbols) := by
  obtain ⟨r, hr, -⟩ := parse_of_hasTree he
  have houtcome := outcome_construct_of_hasTree hr he stateNamer
  refine ⟨r.alphabet, fun c => ?_, ?_⟩
  · rw [← (exists_tokens_of_parse hr).1] at he
    exact he.mem_alphabet_iff
  · simp only [compile, hr, toAutomaton, houtcome]
    rfl

/-- The texts that compile are the expressions. -/
theorem exists_compile_eq_ok_iff {source : String} :
    (∃ A, compile source = .ok A) ↔ ∃ e, HasTree source e := by
  constructor
  · rintro ⟨A, hA⟩
    exact hasTree_of_compile hA
  · rintro ⟨e, he⟩
    obtain ⟨symbols, -, hA⟩ := compile_of_hasTree he
    exact ⟨_, hA⟩

/-! ## Main results -/

/-- A text compiles exactly when it is an expression. If it is read but its automaton cannot be
built, then for an operator without enough operands. -/
theorem exists_compile_iff_hasTree (source : String) :
    ((∃ A, compile source = .ok A) ↔ ∃ e, HasTree source e) ∧
      ∀ r m, parse source = .ok r → r.toAutomaton = .error m →
        m.misfit = .missingOperand ∧ m.misfit.reason = "operator without enough operands" := by
  refine ⟨exists_compile_eq_ok_iff, fun r m hr hm => ?_⟩
  have hmisfit := misfit_of_toAutomaton hr hm
  exact ⟨hmisfit, by rw [hmisfit]; rfl⟩

/-- A text with a dangling operator is no expression; it is read, and refused for the operator. -/
theorem exists_compile_iff_hasTree_dangling :
    (¬ ∃ e, HasTree "ab|" e) ∧
      ∃ r m, parse "ab|" = .ok r ∧ r.toAutomaton = .error m ∧ m.misfit = .missingOperand := by
  obtain ⟨hiff, hmisfit⟩ := exists_compile_iff_hasTree "ab|"
  have hcompile : ∃ error, compile "ab|" = .error error := ⟨_, rfl⟩
  have hparse : ∃ r m, parse "ab|" = .ok r ∧ r.toAutomaton = .error m := ⟨_, _, rfl, rfl⟩
  constructor
  · rw [← hiff]
    rintro ⟨A, hA⟩
    obtain ⟨error, herror⟩ := hcompile
    rw [herror] at hA
    contradiction
  · obtain ⟨r, m, hr, hm⟩ := hparse
    exact ⟨r, m, hr, hm, (hmisfit r m hr hm).1⟩

/-- The determinized automaton of a text that can be built never branches, and accepts the language
of the one syntax tree that the text has. -/
theorem accept_determinize_toAutomaton {source : String} {r : Regex} {A : Automaton String}
    (hr : parse source = .ok r) (hA : r.toAutomaton = .ok A) :
    ∃ e, (∀ d, HasTree source d ↔ d = e) ∧
      ∀ w, ∃ b, A.determinize.accept w = .ok b ∧ (b = true ↔ w ∈ e.language) := by
  obtain ⟨e, f, he, hf, hcomma, rfl⟩ := exists_fragment_of_toAutomaton hr hA
  refine ⟨e, fun d => ⟨fun hd => hd.unique he, fun hd => hd ▸ he⟩, fun w => ?_⟩
  -- The states have their names from the namer, which writes no commas.
  have hnames : (f.toAutomaton.setAlphabet r.alphabet).NamesDistinct :=
    Automaton.namesDistinct_of_comma_free Function.injective_id fun q hq =>
      hcomma q (Fragment.touches_of_mem_allStates hf.toHasEnds hq)
  obtain ⟨b, hb, hiff⟩ := hnames.accept_determinize w
  refine ⟨b, hb, hiff.trans ?_⟩
  have hlanguage : w ∈ f.toAutomaton.language ↔ w ∈ e.language := by
    rw [Fragment.language_toAutomaton, hf.language_eq]
  -- The words of the tree are over the letters of the text.
  rw [← (exists_tokens_of_parse hr).1] at he
  exact ⟨fun h => hlanguage.1 h.2, fun hw => ⟨fun c hc => he.mem_alphabet hw hc, hlanguage.2 hw⟩⟩

/-- A text with a repeated group: its automaton can be built. -/
theorem accept_determinize_toAutomaton_group :
    ∃ r A, parse "a(b|c)*" = .ok r ∧ r.toAutomaton = .ok A ∧
      ∃ e, (∀ d, HasTree "a(b|c)*" d ↔ d = e) ∧
        ∀ w, ∃ b, A.determinize.accept w = .ok b ∧ (b = true ↔ w ∈ e.language) :=
  ⟨_, _, rfl, rfl, accept_determinize_toAutomaton rfl rfl⟩

end FiniteAutomata.Regex
