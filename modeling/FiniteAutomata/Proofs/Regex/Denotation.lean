import FiniteAutomata.Proofs.Regex.Compile

/-!
# What tokens in postfix order denote

A list of tokens means a language without any syntax tree in between: the tokens are evaluated with
a stack of languages, on which a symbol puts its letter and an operator replaces its operands. This
makes sense of lists that come from no text, with symbols that are no letters, and says which lists
do not make sense.

The construction is correct for all of them (`outcome_denotes`). A stack of trees runs between the
two stacks: the languages are those of the trees (`evaluate_map_language`), and the fragments denote
the trees. A list that leaves one tree is that tree in postfix order, and of a tree in postfix order
the automaton is known. That no path through it leaves a fragment half way and comes back is the
matter of the lemmas about fragments, one for each operator.
-/

open scoped Computability

namespace FiniteAutomata.Regex

/-- Takes a token in postfix order with a stack of languages, the latest first. An operator finds
its right operand on top of the stack. There is no meaning where operands are missing, and none in a
parenthesis. -/
def evaluate : List (Language Char) → Token → Option (List (Language Char))
  | languages, .symbol c => some ({[c]} :: languages)
  | right :: left :: languages, .operator .union => some ((left + right) :: languages)
  | right :: left :: languages, .operator .concat => some (left * right :: languages)
  | inner :: languages, .operator .star => some (inner∗ :: languages)
  | inner :: languages, .operator .plus => some (inner * inner∗ :: languages)
  | _, _ => none

/-- Tokens denote a language if this alone is on the stack after them. -/
def Denote (ts : List Token) (L : Language Char) : Prop := ts.foldlM evaluate [] = some [L]

/-- With the languages of trees on the stack, a token does what it does to the trees. -/
theorem evaluate_map_language (trees : List Tree) (t : Token) :
    evaluate (trees.map Tree.language) t = (Tree.push trees t).map (List.map Tree.language) := by
  cases t with
  | symbol c => rfl
  | opening | closing => cases trees <;> rfl
  | operator o =>
    cases o with
    | union | concat =>
      match trees with
      | [] => rfl
      | [_] => rfl
      | _ :: _ :: _ => rfl
    | star | plus => cases trees <;> rfl

/-- Tokens do to the languages of trees what they do to the trees. -/
theorem foldlM_evaluate_map_language (ts : List Token) (trees : List Tree) :
    ts.foldlM evaluate (trees.map Tree.language) =
      (ts.foldlM Tree.push trees).map (List.map Tree.language) := by
  induction ts generalizing trees with
  | nil => rfl
  | cons t ts ih =>
    rw [List.foldlM_cons, List.foldlM_cons, evaluate_map_language]
    cases Tree.push trees t with
    | none => rfl
    | some next => exact ih next

/-- Tokens denote a language exactly if they are a tree of that language in postfix order. -/
theorem denote_iff {ts : List Token} {L : Language Char} :
    Denote ts L ↔ ∃ e : Tree, ts = e.postorder ∧ e.language = L := by
  have hrun : ts.foldlM evaluate [] = _ := foldlM_evaluate_map_language ts []
  rw [Denote, hrun, Option.map_eq_some_iff]
  constructor
  · rintro ⟨trees, htrees, hL⟩
    obtain ⟨e, rfl, rfl⟩ := List.map_eq_singleton_iff.1 hL
    exact ⟨e, Tree.foldlM_push_eq_singleton_iff.1 htrees, rfl⟩
  · rintro ⟨e, hts, rfl⟩
    exact ⟨[e], Tree.foldlM_push_eq_singleton_iff.2 hts, rfl⟩

/-- The construction succeeds exactly on the trees in postfix order, and gives the automaton of the
fragment of the tree. -/
theorem outcome_eq_ok_iff {ts : List Token} {n : Namer} {A : Automaton String} :
    (thompson ts n).outcome = .ok A ↔
      ∃ e : Tree, ts = e.postorder ∧ (e.fragment n).toAutomaton = A := by
  constructor
  · intro hA
    obtain ⟨e, he⟩ := (Builder.Represents.empty n).construct_ok hA
    obtain rfl := Tree.foldlM_push_eq_singleton_iff.1 he
    exact ⟨e, rfl, Except.ok.inj ((construct_postorder e n).2.symm.trans hA)⟩
  · rintro ⟨e, rfl, rfl⟩
    exact (construct_postorder e n).2

/-- From any tokens and any namer, the construction succeeds exactly if the tokens denote a
language. The automaton then has one start state and one final state, and the words that lead from
the one to the other are those of the language. -/
theorem outcome_denotes (ts : List Token) (n : Namer) :
    ((∃ A, (thompson ts n).outcome = .ok A) ↔ ∃ L, Denote ts L) ∧
      ∀ A, (thompson ts n).outcome = .ok A → ∃ L s a, Denote ts L ∧
        (∀ q, q ∈ A.starts ↔ q = s) ∧ (∀ q, q ∈ A.finals ↔ q = a) ∧
        ∀ w, A.Leads s w a ↔ w ∈ L := by
  constructor
  · simp only [outcome_eq_ok_iff, denote_iff]
    constructor
    · rintro ⟨_, e, he, -⟩
      exact ⟨_, e, he, rfl⟩
    · rintro ⟨_, e, he, -⟩
      exact ⟨_, e, he, rfl⟩
  · intro A hA
    obtain ⟨e, he, rfl⟩ := outcome_eq_ok_iff.1 hA
    have hstarts (q : String) := Fragment.mem_starts_toAutomaton (f := e.fragment n) (q := q)
    have hfinals (q : String) := Fragment.mem_finals_toAutomaton (f := e.fragment n) (q := q)
    refine ⟨e.language, _, _, denote_iff.2 ⟨e, he, rfl⟩, hstarts, hfinals, fun w => ?_⟩
    rw [← Automaton.mem_language_iff_leads hstarts hfinals, Fragment.language_toAutomaton,
      (e.denotes_fragment n).language_eq]

/-- Tokens that no text gives, with a parenthesis and a digit for symbols. -/
def nonletterTokens : List Token :=
  [.symbol '(', .symbol '1', .operator .union, .symbol '1', .operator .concat, .operator .plus]

/-- The construction makes sense of them, with a namer in the midst of its work. -/
theorem outcome_denotes_nonletterTokens :
    ∃ A s a, (thompson nonletterTokens ⟨'q', 7⟩).outcome = .ok A ∧
      (∀ q, q ∈ A.starts ↔ q = s) ∧ (∀ q, q ∈ A.finals ↔ q = a) ∧
      ∀ w, A.Leads s w a ↔
        w ∈ (({['(']} + {['1']}) * {['1']} * (({['(']} + {['1']}) * {['1']})∗ : Language Char) := by
  obtain ⟨A, hA⟩ : ∃ A, (thompson nonletterTokens ⟨'q', 7⟩).outcome = .ok A := ⟨_, rfl⟩
  obtain ⟨L, s, a, hL, hs, ha, hleads⟩ := (outcome_denotes nonletterTokens ⟨'q', 7⟩).2 A hA
  have hstack : some [_] = some [L] := hL
  rw [← (List.cons.inj (Option.some.inj hstack)).1] at hleads
  exact ⟨A, s, a, hA, hs, ha, hleads⟩

end FiniteAutomata.Regex
