import FiniteAutomata.Proofs.Regex.Postfix

/-!
# Texts of syntax trees

A tree over letters is written as a text that has this tree (`Tree.hasTree_text`). Operators stand
between and behind their operands and concatenations have no sign. An operand is put in parentheses
where it binds less strongly than the grammar asks for in its place, and only there.
-/

namespace FiniteAutomata.Regex

/-- A phrase is a phrase of every kind that binds less strongly. -/
theorem Phrase.lift {k k' : Category} {ts : List Token} {e : Tree} (h : Phrase k ts e)
    (hk : k'.strength ≤ k.strength) : Phrase k' ts e := by
  have hterm : Phrase .factor ts e → Phrase .expression ts e := fun h => .ofTerm (.ofFactor h)
  cases k with
  | expression =>
    cases k' with
    | expression => exact h
    | term | factor | atom => contradiction
  | term =>
    cases k' with
    | expression => exact .ofTerm h
    | term => exact h
    | factor | atom => contradiction
  | factor =>
    cases k' with
    | expression => exact hterm h
    | term => exact .ofFactor h
    | factor => exact h
    | atom => contradiction
  | atom =>
    cases k' with
    | expression => exact hterm (.ofAtom h)
    | term => exact .ofFactor (.ofAtom h)
    | factor => exact .ofAtom h
    | atom => exact h

/-- The tokens of a phrase where one of another kind is expected: in parentheses if it binds less
strongly. -/
def enclose (k' k : Category) (ts : List Token) : List Token :=
  if k'.strength ≤ k.strength then ts else .opening :: ts ++ [.closing]

/-- They are a phrase of the expected kind. -/
theorem Phrase.enclose {k : Category} {ts : List Token} {e : Tree} (h : Phrase k ts e)
    (k' : Category) : Phrase k' (enclose k' k ts) e := by
  rw [Regex.enclose]
  split
  · rename_i hk
    exact h.lift hk
  · have hexpression : Phrase .expression ts e := h.lift (Nat.zero_le _)
    have hatom : k'.strength ≤ Category.strength .atom := by cases k' <;> decide
    exact hexpression.group.lift hatom

namespace Tree

/-- The kind of phrase that a tree is written as. -/
def kind : Tree → Category
  | symbol _ => .atom
  | union _ _ => .expression
  | concat _ _ => .term
  | star _ => .factor
  | plus _ => .factor

/-- The tokens that a tree is written with. -/
def written : Tree → List Token
  | symbol c => [.symbol c]
  | union left right => enclose .expression left.kind left.written ++
      .operator .union :: enclose .term right.kind right.written
  | concat left right => enclose .term left.kind left.written ++
      enclose .factor right.kind right.written
  | star inner => enclose .factor inner.kind inner.written ++ [.operator .star]
  | plus inner => enclose .factor inner.kind inner.written ++ [.operator .plus]

/-- A tree is written as a phrase of its kind. -/
theorem phrase_written (e : Tree) : Phrase e.kind e.written e := by
  induction e with
  | symbol c => exact .symbol c
  | union left right hl hr => exact (hl.enclose .expression).union (hr.enclose .term)
  | concat left right hl hr => exact (hl.enclose .term).juxtapose (hr.enclose .factor)
  | star inner ih => exact (ih.enclose .factor).star
  | plus inner ih => exact (ih.enclose .factor).plus

/-- The symbols of a tree are letters. -/
def OverLetters (e : Tree) : Prop :=
  ∀ c, .symbol c ∈ e.postorder → Unicode.isAlphabetic c = true

/-- The text of a tree. -/
def text (e : Tree) : String := Token.render e.written

/-- The text of a tree over letters has this tree. -/
theorem hasTree_text {e : Tree} (h : e.OverLetters) : HasTree e.text e :=
  ⟨e.written, fun c hc => h c (e.phrase_written.symbol_mem_iff.1 hc), rfl,
    e.phrase_written.lift (Nat.zero_le _)⟩

/-- A union is put in parentheses within a concatenation, and a concatenation under a star; grouping
to the left needs none. -/
example : (concat (concat (symbol 'a') (union (symbol 'b') (symbol 'c')))
    (star (concat (symbol 'a') (symbol 'b')))).text = "a(b|c)(ab)*" := by rfl

end Tree

end FiniteAutomata.Regex
