import FiniteAutomata.Regex.Wellformed
import FiniteAutomata.Proofs.Regex.Compile

/-!
# Well-formed expressions

The automaton of the depths reads as `Place.next` does, as long as the depth stays within its bound:
its states are the places up to that depth, and its transitions the steps between them
(`mem_transitions_depthAutomaton_iff`). A word therefore leads from a place to the final one exactly
when reading it does and no prefix opens too many parentheses (`leads_iff`). Together with what
compiles, this says which texts are well-formed (`isWellformed_iff`).
-/

namespace FiniteAutomata.Regex

open Std

/-! ## Plain tokens -/

/-- The characters that well-formed expressions are written with. -/
def plainCharacters : List Char := plainLetters ++ ['(', ')', '|', '*', '+']

/-- Whether a token is written in well-formed expressions. -/
def Token.isPlain : Token → Bool
  | .symbol c => c ∈ plainLetters
  | .operator .concat => false
  | _ => true

/-- A symbol is plain if it is a plain letter. -/
theorem Token.isPlain_symbol {c : Char} : (symbol c).isPlain = true ↔ c ∈ plainLetters :=
  decide_eq_true_iff

/-- Plain letters are letters. -/
theorem isAlphabetic_of_mem_plainLetters {c : Char} (h : c ∈ plainLetters) :
    Unicode.isAlphabetic c = true := by
  have hall : plainLetters.all Char.isAlpha = true := by decide +kernel
  exact Unicode.isAlphabetic_of_isAlpha (List.all_eq_true.1 hall c h)

/-- A plain character is what some plain token is written as. -/
theorem exists_token_of_mem_plainCharacters {c : Char} (h : c ∈ plainCharacters) :
    ∃ t : Token, t.isPlain = true ∧ t.toChar = c := by
  rcases List.mem_append.1 h with h | h
  · exact ⟨.symbol c, Token.isPlain_symbol.2 h, rfl⟩
  · simp only [List.mem_cons, List.not_mem_nil, or_false] at h
    rcases h with rfl | rfl | rfl | rfl | rfl
    · exact ⟨.opening, rfl, rfl⟩
    · exact ⟨.closing, rfl, rfl⟩
    · exact ⟨.operator .union, rfl, rfl⟩
    · exact ⟨.operator .star, rfl, rfl⟩
    · exact ⟨.operator .plus, rfl, rfl⟩

/-- A plain token that is a symbol is a letter. -/
theorem Token.isAlphabetic_of_isPlain {t : Token} (h : t.isPlain = true) (c : Char)
    (hc : t = .symbol c) : Unicode.isAlphabetic c = true := by
  subst hc
  exact isAlphabetic_of_mem_plainLetters (isPlain_symbol.1 h)

/-- Plain tokens are told apart by their characters. -/
theorem Token.toChar_inj_of_isPlain {t u : Token} (ht : t.isPlain = true) (hu : u.isPlain = true)
    (h : t.toChar = u.toChar) : t = u :=
  toChar_inj (isAlphabetic_of_isPlain ht) (isAlphabetic_of_isPlain hu) h

/-- A token that is written with a plain character is plain, if it is a letter in case it is a
symbol. -/
theorem Token.isPlain_of_toChar_mem {t : Token} (h : t.toChar ∈ plainCharacters)
    (hletter : ∀ c, t = .symbol c → Unicode.isAlphabetic c = true) : t.isPlain = true := by
  obtain ⟨u, hu, hchar⟩ := exists_token_of_mem_plainCharacters h
  rw [← toChar_inj (isAlphabetic_of_isPlain hu) hletter hchar]
  exact hu

/-! ## Places as states -/

/-- The state for a place. -/
def Place.state (p : Place) : String :=
  if p.operand then following p.depth else expecting p.depth

/-- A place is known by its state. -/
theorem Place.state_injective : Function.Injective Place.state := by
  rintro ⟨d, operand⟩ ⟨d', operand'⟩ h
  cases operand <;> cases operand'
  all_goals
    have hnumber := Namer.nameOf_inj.1 h
    dsimp only at hnumber
    simp only [Place.mk.injEq, reduceCtorEq, and_true, and_false]
    omega

/-- The step of the automaton from a place to a place under a token. -/
def Place.arrow (p : Place) (t : Token) (p' : Place) : Transition String :=
  ⟨p.state, .symbol t.toChar, p'.state⟩

/-- A token that is no parenthesis keeps the depth. -/
theorem Place.depth_eq_of_next {p p' : Place} {t : Token} (h : p.next t = some p')
    (ht : t.isParenthesis = false) : p'.depth = p.depth := by
  cases t with
  | opening => contradiction
  | closing => contradiction
  | symbol c =>
    rw [Place.next_symbol] at h
    obtain rfl := Option.some.inj h
    rfl
  | operator o =>
    obtain ⟨depth, rfl, rfl⟩ := Place.next_operator_iff.1 h
    rfl

/-- The depth counts the parentheses. -/
theorem Place.depth_next {p p' : Place} {t : Token} (h : p.next t = some p')
    (ht : t.isPlain = true) :
    p'.depth + [t.toChar].count ')' = p.depth + [t.toChar].count '(' := by
  cases hparenthesis : t.isParenthesis with
  | false =>
    have hopening : t.toChar ≠ '(' := fun heq => by
      rw [Token.toChar_inj_of_isPlain ht (u := .opening) rfl heq] at hparenthesis
      contradiction
    have hclosing : t.toChar ≠ ')' := fun heq => by
      rw [Token.toChar_inj_of_isPlain ht (u := .closing) rfl heq] at hparenthesis
      contradiction
    rw [Place.depth_eq_of_next h hparenthesis, List.count_singleton, List.count_singleton,
      if_neg (by simpa using hclosing), if_neg (by simpa using hopening)]
  | true =>
    cases t with
    | symbol c => contradiction
    | operator o => contradiction
    | opening =>
      rw [Place.next_opening] at h
      obtain rfl := Option.some.inj h
      rfl
    | closing =>
      obtain ⟨depth, rfl, rfl⟩ := Place.next_closing_iff.1 h
      rfl

/-! ## The automaton of the depths -/

/-- The transitions that stay at a depth are the steps under plain tokens that are no
parentheses. -/
theorem mem_levelTransitions {depth : ℕ} {tr : Transition String} :
    tr ∈ levelTransitions depth ↔ ∃ operand t p', t.isPlain = true ∧ t.isParenthesis = false ∧
      Place.next ⟨depth, operand⟩ t = some p' ∧ tr = Place.arrow ⟨depth, operand⟩ t p' := by
  constructor
  · intro h
    simp only [levelTransitions, List.mem_append, List.mem_map, List.mem_cons, List.not_mem_nil,
      or_false] at h
    rcases h with (⟨c, hc, rfl⟩ | ⟨c, hc, rfl⟩) | rfl | rfl | rfl
    -- A letter fits at both places of the depth, an operator at one of them.
    · exact ⟨false, .symbol c, _, Token.isPlain_symbol.2 hc, rfl, rfl, rfl⟩
    · exact ⟨true, .symbol c, _, Token.isPlain_symbol.2 hc, rfl, rfl, rfl⟩
    · exact ⟨true, .operator .star, _, rfl, rfl, rfl, rfl⟩
    · exact ⟨true, .operator .plus, _, rfl, rfl, rfl, rfl⟩
    · exact ⟨true, .operator .union, _, rfl, rfl, rfl, rfl⟩
  · rintro ⟨operand, t, p', hplain, hparenthesis, hnext, rfl⟩
    simp only [levelTransitions, List.mem_append, List.mem_map, List.mem_cons, List.not_mem_nil,
      or_false]
    cases t with
    | opening => contradiction
    | closing => contradiction
    | symbol c =>
      have hc := Token.isPlain_symbol.1 hplain
      rw [Place.next_symbol] at hnext
      obtain rfl := Option.some.inj hnext
      cases operand with
      | false => exact .inl (.inl ⟨c, hc, rfl⟩)
      | true => exact .inl (.inr ⟨c, hc, rfl⟩)
    | operator o =>
      obtain ⟨depth, hp, rfl⟩ := Place.next_operator_iff.1 hnext
      obtain ⟨rfl, rfl⟩ := Place.mk.inj hp
      cases o with
      | concat => contradiction
      | star => exact .inr (.inl rfl)
      | plus => exact .inr (.inr (.inl rfl))
      | union => exact .inr (.inr (.inr rfl))

/-- The transitions between a depth and the next one are the steps under parentheses. -/
theorem mem_groupTransitions {depth : ℕ} {tr : Transition String} :
    tr ∈ groupTransitions depth ↔
      (∃ operand, tr = Place.arrow ⟨depth, operand⟩ .opening ⟨depth + 1, false⟩) ∨
        tr = Place.arrow ⟨depth + 1, true⟩ .closing ⟨depth, true⟩ := by
  simp only [groupTransitions, List.mem_cons, List.not_mem_nil, or_false]
  constructor
  · rintro (rfl | rfl | rfl)
    · exact .inl ⟨false, rfl⟩
    · exact .inl ⟨true, rfl⟩
    · exact .inr rfl
  · rintro (⟨operand, rfl⟩ | rfl)
    · cases operand with
      | false => exact .inl rfl
      | true => exact .inr (.inl rfl)
    · exact .inr (.inr rfl)

/-- A transition stays at a depth up to the bound, or lies between a depth below the bound and the
next one. -/
theorem mem_transitions_depthAutomaton {tr : Transition String} :
    tr ∈ depthAutomaton.transitions ↔
      (∃ depth ≤ maxDepth, tr ∈ levelTransitions depth) ∨
        ∃ depth < maxDepth, tr ∈ groupTransitions depth := by
  have hempty : tr ∉ (Automaton.empty : Automaton String).transitions := by simp [Automaton.empty]
  unfold depthAutomaton Automaton.markFinal Automaton.markStart
  dsimp only
  rw [Automaton.mem_transitions_addTransitions, List.mem_append, List.mem_flatMap,
    List.mem_flatMap]
  simp only [List.mem_range, Nat.lt_succ_iff]
  exact or_iff_right hempty

/-- The transitions are the steps between places up to the bound. -/
theorem mem_transitions_depthAutomaton_iff {tr : Transition String} :
    tr ∈ depthAutomaton.transitions ↔ ∃ p t p', p.depth ≤ maxDepth ∧ p'.depth ≤ maxDepth ∧
      t.isPlain = true ∧ Place.next p t = some p' ∧ tr = p.arrow t p' := by
  rw [mem_transitions_depthAutomaton]
  constructor
  · rintro (⟨depth, hdepth, h⟩ | ⟨depth, hdepth, h⟩)
    · obtain ⟨operand, t, p', hplain, hparenthesis, hnext, rfl⟩ := mem_levelTransitions.1 h
      refine ⟨⟨depth, operand⟩, t, p', hdepth, ?_, hplain, hnext, rfl⟩
      rw [Place.depth_eq_of_next hnext hparenthesis]
      exact hdepth
    · rcases mem_groupTransitions.1 h with ⟨operand, rfl⟩ | rfl
      · refine ⟨⟨depth, operand⟩, .opening, ⟨depth + 1, false⟩, hdepth.le, hdepth, rfl, ?_, rfl⟩
        cases operand <;> rfl
      · exact ⟨⟨depth + 1, true⟩, .closing, ⟨depth, true⟩, hdepth, hdepth.le, rfl, rfl, rfl⟩
  · rintro ⟨⟨depth, operand⟩, t, p', hdepth, hdepth', hplain, hnext, rfl⟩
    -- A parenthesis changes the depth by one, and the lower of the two depths has the transition.
    cases hparenthesis : t.isParenthesis with
    | false =>
      exact .inl ⟨depth, hdepth,
        mem_levelTransitions.2 ⟨operand, t, p', hplain, hparenthesis, hnext, rfl⟩⟩
    | true =>
      cases t with
      | symbol c => contradiction
      | operator o => contradiction
      | opening =>
        rw [Place.next_opening] at hnext
        obtain rfl := Option.some.inj hnext
        exact .inr ⟨depth, hdepth', mem_groupTransitions.2 (.inl ⟨operand, rfl⟩)⟩
      | closing =>
        obtain ⟨depth, hp, rfl⟩ := Place.next_closing_iff.1 hnext
        obtain ⟨rfl, rfl⟩ := Place.mk.inj hp
        exact .inr ⟨depth, hdepth, mem_groupTransitions.2 (.inr rfl)⟩

/-- From a place up to the bound, the automaton reads a plain token as places do. -/
theorem mem_transitions_depthAutomaton_state {p : Place} {t : Token} {q : String}
    (hp : p.depth ≤ maxDepth) (ht : t.isPlain = true) :
    ⟨p.state, .symbol t.toChar, q⟩ ∈ depthAutomaton.transitions ↔
      ∃ p', p.next t = some p' ∧ p'.depth ≤ maxDepth ∧ q = p'.state := by
  rw [mem_transitions_depthAutomaton_iff]
  constructor
  · rintro ⟨p₁, t₁, p', _, hp', ht₁, hnext, heq⟩
    obtain ⟨hsource, hlabel, rfl⟩ := Transition.mk.injEq .. ▸ heq
    obtain rfl := Place.state_injective hsource
    obtain rfl := Token.toChar_inj_of_isPlain ht ht₁ (Label.symbol.inj hlabel)
    exact ⟨p', hnext, hp', rfl⟩
  · rintro ⟨p', hnext, hp', rfl⟩
    exact ⟨p, t, p', hp, hp', ht, hnext, rfl⟩

/-- No transition reads nothing. -/
theorem isEpsilon_depthAutomaton : ∀ tr ∈ depthAutomaton.transitions, tr.isEpsilon = false := by
  intro tr htr
  obtain ⟨p, t, p', _, _, _, _, rfl⟩ := mem_transitions_depthAutomaton_iff.1 htr
  rfl

/-- Plain tokens lead from a place to the final one exactly when reading them does, and no prefix
opens more parentheses than the bound leaves. -/
theorem leads_iff {p : Place} {ts : List Token} (hp : p.depth ≤ maxDepth)
    (hts : ∀ t ∈ ts, t.isPlain = true) :
    depthAutomaton.Leads p.state (ts.map Token.toChar) Place.final.state ↔
      ts.foldlM Place.next p = some .final ∧
        ∀ u, u <+: ts.map Token.toChar → p.depth + u.count '(' ≤ u.count ')' + maxDepth := by
  induction ts generalizing p with
  | nil =>
    refine (Path.nil_iff_of_not_isEpsilon isEpsilon_depthAutomaton).trans ?_
    rw [Place.state_injective.eq_iff]
    constructor
    · rintro rfl
      refine ⟨rfl, fun u hu => ?_⟩
      rw [List.prefix_nil.1 hu]
      simpa using hp
    · rintro ⟨h, _⟩
      exact Option.some.inj h
  | cons t ts ih =>
    have ht := hts t (.head _)
    have hrest : ∀ u ∈ ts, u.isPlain = true := fun u hu => hts u (.tail _ hu)
    rw [List.map_cons, List.foldlM_cons]
    refine (Path.cons_iff_of_not_isEpsilon isEpsilon_depthAutomaton).trans ?_
    constructor
    · rintro ⟨q, hq, hpath⟩
      obtain ⟨p', hnext, hp', rfl⟩ := (mem_transitions_depthAutomaton_state hp ht).1 hq
      obtain ⟨hread, hopen⟩ := (ih hp' hrest).1 hpath
      have hdepth := Place.depth_next hnext ht
      rw [hnext]
      refine ⟨hread, fun u hu => ?_⟩
      -- A prefix is empty, or begins with the token and counts on from the next place.
      rcases List.prefix_cons_iff.1 hu with rfl | ⟨v, rfl, hv⟩
      · simpa using hp
      · have := hopen v hv
        rw [← List.singleton_append, List.count_append, List.count_append]
        omega
    · rintro ⟨hread, hopen⟩
      -- The prefix of one token bounds the next depth, and the others carry over to it.
      obtain ⟨p', hnext, hread⟩ := Option.bind_eq_some_iff.1 hread
      have hdepth := Place.depth_next hnext ht
      have hopen' : ∀ u, u <+: ts.map Token.toChar →
          p'.depth + u.count '(' ≤ u.count ')' + maxDepth := by
        intro u hu
        have := hopen (t.toChar :: u) (List.prefix_cons_inj _ |>.2 hu)
        rw [← List.singleton_append, List.count_append, List.count_append] at this
        omega
      have hp' : p'.depth ≤ maxDepth := by simpa using hopen' [] List.nil_prefix
      exact ⟨p'.state, (mem_transitions_depthAutomaton_state hp ht).2 ⟨p', hnext, hp', rfl⟩,
        (ih hp' hrest).2 ⟨hread, hopen'⟩⟩

/-- The symbols of the automaton are the plain characters. -/
theorem mem_alphabet_depthAutomaton {c : Char} :
    c ∈ depthAutomaton.alphabet ↔ c ∈ plainCharacters := by
  unfold depthAutomaton Automaton.markFinal Automaton.markStart
  dsimp only
  rw [Automaton.alphabet_addTransitions, Automaton.setAlphabet, FiniteSet.mem_ofList_iff,
    plainCharacters, List.mem_append, List.mem_append]
  simp only [List.mem_cons, List.not_mem_nil, or_false]
  tauto

/-- The automaton starts where reading does. -/
theorem mem_starts_depthAutomaton {q : String} :
    q ∈ depthAutomaton.starts ↔ q = Place.start.state := by
  unfold depthAutomaton Automaton.markFinal Automaton.markStart
  dsimp only
  rw [FiniteSet.mem_insert_iff, Automaton.starts_addTransitions]
  simp [Automaton.setAlphabet, Automaton.empty, Place.start, Place.state]

/-- The automaton accepts where an expression is complete. -/
theorem mem_finals_depthAutomaton {q : String} :
    q ∈ depthAutomaton.finals ↔ q = Place.final.state := by
  unfold depthAutomaton Automaton.markFinal Automaton.markStart
  dsimp only
  rw [FiniteSet.mem_insert_iff, Automaton.finals_addTransitions]
  simp [Automaton.setAlphabet, Automaton.empty, Place.final, Place.state]

/-- The names of places tell sets of them apart. -/
theorem namesDistinct_depthAutomaton : depthAutomaton.NamesDistinct := by
  have hcomma (p : Place) : ',' ∉ p.state.toList := by
    unfold Place.state
    split <;> exact Namer.not_mem_toList_nameOf (by decide) (by decide) _
  refine Automaton.namesDistinct_of_comma_free Function.injective_id fun q hq => ?_
  rw [Automaton.mem_allStates, Automaton.mem_states, mem_starts_depthAutomaton,
    mem_finals_depthAutomaton] at hq
  rcases hq with ⟨tr, htr, hq⟩ | rfl | rfl
  · obtain ⟨p, t, p', _, _, _, _, rfl⟩ := mem_transitions_depthAutomaton_iff.1 htr
    rcases hq with rfl | rfl
    · exact hcomma p
    · exact hcomma p'
  · exact hcomma .start
  · exact hcomma .final

/-- The automaton reads the words that lead from the place where reading starts to the final one. -/
theorem mem_language_depthAutomaton {w : List Char} : w ∈ depthAutomaton.language ↔
    depthAutomaton.Leads Place.start.state w Place.final.state :=
  Automaton.mem_language_iff_leads (fun _ => mem_starts_depthAutomaton)
    fun _ => mem_finals_depthAutomaton

/-- Plain characters are those of plain tokens. -/
theorem exists_tokens_of_plainCharacters {cs : List Char} (h : ∀ c ∈ cs, c ∈ plainCharacters) :
    ∃ ts : List Token, (∀ t ∈ ts, t.isPlain = true) ∧ ts.map Token.toChar = cs := by
  induction cs with
  | nil => exact ⟨[], fun t ht => absurd ht List.not_mem_nil, rfl⟩
  | cons c cs ih =>
    obtain ⟨t, ht, hc⟩ := exists_token_of_mem_plainCharacters (h c (.head _))
    obtain ⟨ts, hts, hcs⟩ := ih fun d hd => h d (.tail _ hd)
    refine ⟨t :: ts, fun u hu => ?_, by rw [List.map_cons, hc, hcs]⟩
    rcases List.mem_cons.1 hu with rfl | hu
    · exact ht
    · exact hts u hu

/-- The automaton reads a text over the plain characters exactly when the text is an expression and
no prefix has too many open parentheses. -/
theorem mem_language_depthAutomaton_iff {text : String}
    (htext : ∀ c ∈ text.toList, c ∈ plainCharacters) :
    text.toList ∈ depthAutomaton.language ↔
      (∀ u, u <+: text.toList → u.count '(' ≤ u.count ')' + maxDepth) ∧
        ∃ e, HasTree text e := by
  -- Whatever plain tokens the text is written with, they decide.
  have hleads {ts : List Token} (hts : ∀ t ∈ ts, t.isPlain = true)
      (hrender : ts.map Token.toChar = text.toList) :
      text.toList ∈ depthAutomaton.language ↔ ts.foldlM Place.next .start = some .final ∧
        ∀ u, u <+: text.toList → Place.start.depth + u.count '(' ≤ u.count ')' + maxDepth := by
    rw [mem_language_depthAutomaton, ← hrender]
    exact leads_iff (Nat.zero_le maxDepth) hts
  simp only [Place.start, zero_add] at hleads
  constructor
  · intro h
    obtain ⟨ts, hts, hrender⟩ := exists_tokens_of_plainCharacters htext
    obtain ⟨hread, hopen⟩ := (hleads hts hrender).1 h
    obtain ⟨e, he⟩ := exists_phrase_iff.2 hread
    refine ⟨hopen, e, ts, fun c hc => ?_, ?_, he⟩
    · exact isAlphabetic_of_mem_plainLetters (Token.isPlain_symbol.1 (hts _ hc))
    · rw [Token.render, hrender, String.ofList_toList]
  · -- The tokens of the expression are plain, since the text is.
    rintro ⟨hopen, e, ts, hletters, hrender, he⟩
    have hmap : ts.map Token.toChar = text.toList := by
      rw [← hrender, Token.render, String.toList_ofList]
    have hts : ∀ t ∈ ts, t.isPlain = true := by
      intro t ht
      have hc : t.toChar ∈ text.toList := hmap ▸ List.mem_map_of_mem ht
      exact Token.isPlain_of_toChar_mem (htext _ hc) fun c hc => hletters c (hc ▸ ht)
    exact (hleads hts hmap).2 ⟨exists_phrase_iff.1 ⟨e, he⟩, hopen⟩

/-- A text is well-formed when it is an expression over the plain characters in which no prefix has
too many open parentheses. -/
theorem isWellformed_iff_hasTree {text : String} : isWellformed text = true ↔
    (∀ c ∈ text.toList, c ∈ plainCharacters) ∧
      (∀ u, u <+: text.toList → u.count '(' ≤ u.count ')' + maxDepth) ∧ ∃ e, HasTree text e := by
  obtain ⟨b, hb, hiff⟩ := namesDistinct_depthAutomaton.accept_determinize text.toList
  have haccept : isWellformed text = b := Automaton.accepts_eq_of_accept_eq_ok hb
  rw [haccept, hiff]
  simp only [mem_alphabet_depthAutomaton]
  exact and_congr_right fun htext => mem_language_depthAutomaton_iff htext

/-- A text is well-formed exactly when it is over the plain characters, no more parentheses than the
bound are open anywhere, and it compiles. The acceptor never branches. -/
theorem isWellformed_iff (text : String) :
    (isWellformed text = true ↔
      (∀ c ∈ text.toList, c ∈ plainLetters ++ ['(', ')', '|', '*', '+']) ∧
        (∀ u, u <+: text.toList → u.count '(' ≤ u.count ')' + maxDepth) ∧
          ∃ A, compile text = .ok A) ∧
      ∃ b, acceptor.accept text.toList = .ok b := by
  constructor
  · rw [exists_compile_eq_ok_iff]
    exact isWellformed_iff_hasTree
  · obtain ⟨b, hb, -⟩ := namesDistinct_depthAutomaton.accept_determinize text.toList
    exact ⟨b, hb⟩

end FiniteAutomata.Regex
