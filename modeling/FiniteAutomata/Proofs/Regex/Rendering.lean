import FiniteAutomata.Proofs.Regex.Compile

/-!
# Reading rendered tokens

A text is read from the tokens that it is written with, so rendering is undone by reading
(`tokenize_render`), and reading by rendering. The forms of an expression can therefore be read in
their turn: its postfix form gives back the tokens of this form, and its infix form with all signs
of concatenation is an expression that comes to the same (`parse_render_concatenated`).

For the latter no further sign may be inserted. Tokens have *explicit* concatenations if nowhere an
operand ends right before another one begins. Insertion brings this about, whatever the tokens are,
and leaves such tokens alone. A sign of concatenation neither ends nor begins an operand, so those
that the text had already are no obstacle.
-/

namespace FiniteAutomata.Regex

/-! ## Explicit concatenations -/

/-- Nowhere does an operand end right before another one begins. -/
def IsExplicit (ts : List Token) : Prop :=
  ts.IsChain fun s t => (s.endsOperand && t.beginsOperand) = false

/-- Insertion leaves the first token in its place. -/
theorem exists_insertConcatenation_cons (t : Token) (ts : List Token) :
    ∃ rest, insertConcatenation (t :: ts) = t :: rest := by
  cases ts with
  | nil => exact ⟨[], rfl⟩
  | cons u ts => exact ⟨_, insertConcatenation_cons_cons t u ts⟩

/-- Insertion makes concatenations explicit. -/
theorem isExplicit_insertConcatenation (ts : List Token) : IsExplicit (insertConcatenation ts) := by
  induction ts with
  | nil => exact .nil
  | cons s ts ih =>
    cases ts with
    | nil => exact .singleton s
    | cons t ts =>
      obtain ⟨rest, hrest⟩ := exists_insertConcatenation_cons t ts
      rw [hrest] at ih
      rw [insertConcatenation_cons_cons, hrest]
      -- Either a sign parts the two tokens or they need none.
      split
      · exact .cons_cons (Bool.and_false _) (.cons_cons (Bool.false_and _) ih)
      · rename_i hfits
        exact .cons_cons (eq_false_of_ne_true hfits) ih

/-- Nothing is inserted between tokens with explicit concatenations. -/
theorem IsExplicit.insertConcatenation_eq {ts : List Token} (h : IsExplicit ts) :
    insertConcatenation ts = ts := by
  induction ts with
  | nil => rfl
  | cons s ts ih =>
    cases ts with
    | nil => rfl
    | cons t ts =>
      obtain ⟨hst, hts⟩ := List.isChain_cons_cons.1 h
      rw [insertConcatenation_cons_cons, hst, ih hts]
      rfl

/-- Insertion inserts no symbols. -/
theorem symbol_mem_insertConcatenation {ts : List Token} {c : Char} :
    .symbol c ∈ insertConcatenation ts ↔ .symbol c ∈ ts := by
  induction ts with
  | nil => rfl
  | cons s ts ih =>
    cases ts with
    | nil => rfl
    | cons t ts =>
      have hsign : .symbol c ∉ if s.endsOperand && t.beginsOperand then
          [Token.operator .concat] else [] := by
        split <;> simp
      rw [insertConcatenation_cons_cons, List.mem_cons, List.mem_append, ih,
        List.mem_cons (b := s)]
      exact or_congr_right (or_iff_right hsign)

/-! ## Forms of an expression -/

/-- Tokens whose symbols are letters are read from the text that they are rendered as. -/
theorem tokenize_render {ts : List Token}
    (h : ∀ c, .symbol c ∈ ts → Unicode.isAlphabetic c = true) :
    tokenize (Token.render ts) = .ok ts :=
  tokenize_eq_ok_iff.2 ⟨h, rfl⟩

/-- The postfix form has the symbols of the text. -/
theorem symbol_mem_of_toPostfix {ts ps : List Token} (h : toPostfix ts = .ok ps) {c : Char} :
    .symbol c ∈ ps ↔ .symbol c ∈ ts := by
  rw [(perm_of_toPostfix h).mem_iff, withoutParentheses, List.mem_filter]
  exact and_iff_left rfl

/-- What is constructed depends on the postfix form and on the letters. -/
theorem construct_congr {r r' : Regex} (hpost : r.postfixTokens = r'.postfixTokens)
    (halphabet : r.alphabet = r'.alphabet) (n : Namer) : r.construct n = r'.construct n := by
  rw [construct, construct, hpost, halphabet]

/-- The forms of an expression are read back. Its infix form is an expression with the same forms
and the same letters, from which any namer constructs the same automaton, or fails in the same way.
Its postfix form has the tokens that it is the rendering of. And a text that has tokens is the
rendering of these. -/
theorem parse_render_concatenated :
    (∀ source r, parse source = .ok r →
      (∃ r', parse (Token.render r.concatenated) = .ok r' ∧ r'.concatenated = r.concatenated ∧
        r'.postfixTokens = r.postfixTokens ∧ r'.alphabet = r.alphabet ∧
        ∀ n, r'.construct n = r.construct n) ∧
      tokenize (Token.render r.postfixTokens) = .ok r.postfixTokens) ∧
    ∀ text ts, tokenize text = .ok ts → Token.render ts = text := by
  refine ⟨fun source r hr => ?_, fun text ts h => (tokenize_eq_ok_iff.1 h).2⟩
  obtain ⟨rfl, ts, hts, hconcatenated, hps⟩ := parse_eq_ok_iff.1 hr
  have hletters := (tokenize_eq_ok_iff.1 hts).1
  have htokens : tokenize (Token.render r.concatenated) = .ok r.concatenated := by
    refine tokenize_render fun c hc => hletters c ?_
    rwa [hconcatenated, symbol_mem_insertConcatenation] at hc
  have hexplicit : insertConcatenation r.concatenated = r.concatenated := by
    rw [hconcatenated]
    exact (isExplicit_insertConcatenation ts).insertConcatenation_eq
  constructor
  · let r' : Regex := ⟨Token.render r.concatenated, r.concatenated, r.postfixTokens⟩
    have halphabet : r'.alphabet = r.alphabet := by
      refine Std.ExtTreeSet.ext_mem fun c => ?_
      rw [mem_alphabet_iff hts, mem_alphabet_iff (r := r') htokens, hconcatenated,
        symbol_mem_insertConcatenation]
    exact ⟨r', parse_eq_ok_iff.2 ⟨rfl, _, htokens, hexplicit.symm, hps⟩, rfl, rfl, halphabet,
      construct_congr rfl halphabet⟩
  · refine tokenize_render fun c hc => hletters c ?_
    rwa [symbol_mem_of_toPostfix hps, hconcatenated, symbol_mem_insertConcatenation] at hc

/-- A text with a sign of concatenation and a dangling operator. It is read, and so are its forms,
though no automaton can be built from any of them. A text with stray parentheses is not read, but it
is the rendering of its tokens. -/
theorem parse_render_concatenated_dangling :
    (∃ r r', parse "a?b(c)|" = .ok r ∧ Token.render r.concatenated = "a?b?(c)|" ∧
      Token.render r.postfixTokens = "ab?c?|" ∧ parse "a?b?(c)|" = .ok r' ∧
      r'.postfixTokens = r.postfixTokens ∧ r'.alphabet = r.alphabet ∧
      r'.construct stateNamer = r.construct stateNamer ∧
      tokenize "ab?c?|" = .ok r.postfixTokens) ∧
    ∃ ts, tokenize ")a|(" = .ok ts ∧ Token.render ts = ")a|(" := by
  obtain ⟨hforms, hrender⟩ := parse_render_concatenated
  constructor
  · obtain ⟨r, hr, htext, htext'⟩ : ∃ r, parse "a?b(c)|" = .ok r ∧
        Token.render r.concatenated = "a?b?(c)|" ∧ Token.render r.postfixTokens = "ab?c?|" :=
      ⟨_, rfl, rfl, rfl⟩
    obtain ⟨⟨r', hr', -, hps, halphabet, hconstruct⟩, htokens⟩ := hforms _ r hr
    rw [htext] at hr'
    rw [htext'] at htokens
    exact ⟨r, r', hr, htext, htext', hr', hps, halphabet, hconstruct stateNamer, htokens⟩
  · exact ⟨_, rfl, hrender _ _ rfl⟩

end FiniteAutomata.Regex
