import FiniteAutomata.Proofs.Regex.Tree

/-!
# The grammar of expressions

An expression is a union of terms, a term a concatenation of factors, and a factor an atom with
stars and pluses behind it; an atom is a symbol or an expression in parentheses. Unions and
concatenations group to the left, and a concatenation may be written by its sign or by putting one
operand after the other.

A second description needs no trees: reading from the left, an operand may begin anywhere, and all
other tokens need a complete operand before them. `exists_phrase_iff` says that the two agree. From
the grammar this is an induction on phrases. In the other direction the tokens read so far are cut
into a factor and what leads up to it, one part for each open parenthesis; what leads up to a factor
is a beginning of an expression that any term completes and a beginning of a term that any factor
completes.
-/

namespace FiniteAutomata.Regex

/-! ## Phrases -/

/-- The kinds of phrases, from the weakest binding to the strongest. -/
inductive Category where
  /-- Terms joined by unions. -/
  | expression
  /-- Factors joined by concatenations. -/
  | term
  /-- An atom that may be repeated. -/
  | factor
  /-- A symbol or an expression in parentheses. -/
  | atom
  deriving DecidableEq

/-- The tokens of a phrase of some kind with its syntax tree. -/
inductive Phrase : Category → List Token → Tree → Prop where
  /-- A symbol is an atom. -/
  | symbol (c : Char) : Phrase .atom [.symbol c] (.symbol c)
  /-- An expression in parentheses is an atom. -/
  | group {ts : List Token} {e : Tree} (h : Phrase .expression ts e) :
      Phrase .atom (.opening :: ts ++ [.closing]) e
  /-- An atom is a factor. -/
  | ofAtom {ts : List Token} {e : Tree} (h : Phrase .atom ts e) : Phrase .factor ts e
  /-- A factor may be starred. -/
  | star {ts : List Token} {e : Tree} (h : Phrase .factor ts e) :
      Phrase .factor (ts ++ [.operator .star]) (.star e)
  /-- A factor may have a plus. -/
  | plus {ts : List Token} {e : Tree} (h : Phrase .factor ts e) :
      Phrase .factor (ts ++ [.operator .plus]) (.plus e)
  /-- A factor is a term. -/
  | ofFactor {ts : List Token} {e : Tree} (h : Phrase .factor ts e) : Phrase .term ts e
  /-- A term may have a factor right behind it. -/
  | juxtapose {ts us : List Token} {d e : Tree} (hd : Phrase .term ts d)
      (he : Phrase .factor us e) : Phrase .term (ts ++ us) (.concat d e)
  /-- A term may be concatenated with a factor by the sign. -/
  | concat {ts us : List Token} {d e : Tree} (hd : Phrase .term ts d) (he : Phrase .factor us e) :
      Phrase .term (ts ++ .operator .concat :: us) (.concat d e)
  /-- A term is an expression. -/
  | ofTerm {ts : List Token} {e : Tree} (h : Phrase .term ts e) : Phrase .expression ts e
  /-- An expression may be united with a term. -/
  | union {ts us : List Token} {d e : Tree} (hd : Phrase .expression ts d)
      (he : Phrase .term us e) : Phrase .expression (ts ++ .operator .union :: us) (.union d e)

/-- A text is an expression with a given tree: its characters are the tokens of an expression whose
symbols are letters. -/
def HasTree (source : String) (e : Tree) : Prop :=
  ∃ ts : List Token, (∀ c, .symbol c ∈ ts → Unicode.isAlphabetic c = true) ∧
    Token.render ts = source ∧ Phrase .expression ts e

/-- A symbol occurs in the tree as often as among the tokens. -/
theorem Phrase.count_symbol {k : Category} {ts : List Token} {e : Tree} (h : Phrase k ts e)
    (c : Char) : ts.count (.symbol c) = e.postorder.count (.symbol c) := by
  induction h with
  | symbol => rfl
  | ofAtom _ ih | ofFactor _ ih | ofTerm _ ih => exact ih
  | group _ ih | star _ ih | plus _ ih => simp [Tree.postorder, ih]
  | juxtapose _ _ ihd ihe | concat _ _ ihd ihe | union _ _ ihd ihe =>
    simp [Tree.postorder, ihd, ihe]

/-- The symbols of the tokens are those of the tree. -/
theorem Phrase.symbol_mem_iff {k : Category} {ts : List Token} {e : Tree} (h : Phrase k ts e)
    {c : Char} : .symbol c ∈ ts ↔ .symbol c ∈ e.postorder := by
  rw [← List.count_pos_iff, h.count_symbol, List.count_pos_iff]

/-! ## Reading from the left -/

/-- How far the tokens read so far have come. -/
structure Place where
  /-- The number of open parentheses. -/
  depth : ℕ
  /-- Whether an operand has just been completed. -/
  operand : Bool
  deriving DecidableEq

/-- The number of open parentheses after a token, unless the token closes one that is not open. -/
def Token.nest (depth : ℕ) : Token → Option ℕ
  | .opening => some (depth + 1)
  | .closing => if depth = 0 then none else some (depth - 1)
  | _ => some depth

/-- The place after a token. A token fits if an operand begins with it or has just been
completed. -/
def Place.next (p : Place) (t : Token) : Option Place :=
  if p.operand || t.beginsOperand then
    (t.nest p.depth).map fun depth => ⟨depth, t.endsOperand⟩
  else none

/-- The place where reading starts. -/
def Place.start : Place := ⟨0, false⟩

/-- The place where an expression is complete. -/
def Place.final : Place := ⟨0, true⟩

/-- A symbol fits anywhere. -/
theorem Place.next_symbol (p : Place) (c : Char) : p.next (.symbol c) = some ⟨p.depth, true⟩ := by
  obtain ⟨depth, _ | _⟩ := p <;> rfl

/-- A parenthesis may be opened anywhere. -/
theorem Place.next_opening (p : Place) : p.next .opening = some ⟨p.depth + 1, false⟩ := by
  obtain ⟨depth, _ | _⟩ := p <;> rfl

/-- Only an open parenthesis is closed, and only behind an operand. -/
theorem Place.next_closing_iff {p p' : Place} : p.next .closing = some p' ↔
    ∃ depth, p = ⟨depth + 1, true⟩ ∧ p' = ⟨depth, true⟩ := by
  constructor
  · intro h
    obtain ⟨_ | depth, _ | _⟩ := p
    · contradiction
    · contradiction
    · contradiction
    · exact ⟨depth, rfl, (Option.some.inj h).symm⟩
  · rintro ⟨depth, rfl, rfl⟩
    rfl

/-- An operator fits behind an operand. -/
theorem Place.next_operator_iff {p p' : Place} {o : Operator} : p.next (.operator o) = some p' ↔
    ∃ depth, p = ⟨depth, true⟩ ∧ p' = ⟨depth, (Token.operator o).endsOperand⟩ := by
  constructor
  · intro h
    obtain ⟨depth, _ | _⟩ := p
    · contradiction
    · exact ⟨depth, rfl, (Option.some.inj h).symm⟩
  · rintro ⟨depth, rfl, rfl⟩
    rfl

/-- Reading a phrase completes an operand at the same depth. -/
theorem Phrase.foldlM_next {k : Category} {ts : List Token} {e : Tree} (h : Phrase k ts e)
    (p : Place) : ts.foldlM Place.next p = some ⟨p.depth, true⟩ := by
  induction h generalizing p with
  | symbol c =>
    rw [List.foldlM_cons, p.next_symbol]
    rfl
  | group _ ih =>
    rw [List.cons_append, List.foldlM_cons, p.next_opening, Option.bind_eq_bind, Option.bind_some,
      List.foldlM_append, ih]
    rfl
  | ofAtom _ ih | ofFactor _ ih | ofTerm _ ih => exact ih p
  | star _ ih | plus _ ih =>
    rw [List.foldlM_append, ih]
    rfl
  | juxtapose _ _ ihd ihe =>
    rw [List.foldlM_append, ihd, Option.bind_eq_bind, Option.bind_some, ihe]
  | concat _ _ ihd ihe | union _ _ ihd ihe =>
    rw [List.foldlM_append, ihd, Option.bind_eq_bind, Option.bind_some, List.foldlM_cons,
      Place.next_operator_iff.2 ⟨_, rfl, rfl⟩, Option.bind_eq_bind, Option.bind_some, ihe]

/-- Tokens that make a phrase of one kind out of every phrase of another kind that follows them. -/
def Begins (k k' : Category) (xs : List Token) : Prop :=
  ∀ us e, Phrase k us e → ∃ e', Phrase k' (xs ++ us) e'

/-- Tokens that lead up to a factor within its parentheses: the beginning of an expression, and then
the beginning of a term. -/
def Lead (ts : List Token) : Prop :=
  ∃ xs ys, ts = xs ++ ys ∧ Begins .term .expression xs ∧ Begins .factor .term ys

/-- A factor may be the first one. -/
theorem lead_nil : Lead [] :=
  ⟨[], [], rfl, fun _ e h => ⟨e, .ofTerm h⟩, fun _ e h => ⟨e, .ofFactor h⟩⟩

/-- A factor completes what leads up to it to an expression. -/
theorem Lead.exists_expression {ts us : List Token} {e : Tree} (h : Lead ts)
    (hu : Phrase .factor us e) : ∃ e', Phrase .expression (ts ++ us) e' := by
  obtain ⟨xs, ys, rfl, hxs, hys⟩ := h
  obtain ⟨d, hd⟩ := hys us e hu
  rw [List.append_assoc]
  exact hxs _ d hd

/-- A factor may follow a factor. -/
theorem Lead.append_factor {ts us : List Token} {e : Tree} (h : Lead ts)
    (hu : Phrase .factor us e) : Lead (ts ++ us) := by
  obtain ⟨xs, ys, rfl, hxs, hys⟩ := h
  obtain ⟨d, hd⟩ := hys us e hu
  refine ⟨xs, ys ++ us, List.append_assoc .., hxs, fun vs f hv => ?_⟩
  exact ⟨_, .juxtapose hd hv⟩

/-- A factor may follow a union or a concatenation. -/
theorem Lead.append_operator {ts us : List Token} {e : Tree} {o : Operator} (h : Lead ts)
    (hu : Phrase .factor us e) (ho : (Token.operator o).endsOperand = false) :
    Lead (ts ++ us ++ [.operator o]) := by
  cases o with
  | star => contradiction
  | plus => contradiction
  | union =>
    -- All so far becomes the first operand, and the next term begins.
    obtain ⟨d, hd⟩ := h.exists_expression hu
    refine ⟨ts ++ us ++ [.operator .union], [], by simp, fun vs f hv => ?_, ?_⟩
    · rw [List.append_assoc _ [_]]
      exact ⟨_, .union hd hv⟩
    · exact fun vs f hv => ⟨f, .ofFactor hv⟩
  | concat =>
    -- Only the last term becomes the first operand.
    obtain ⟨xs, ys, rfl, hxs, hys⟩ := h
    obtain ⟨d, hd⟩ := hys us e hu
    refine ⟨xs, ys ++ us ++ [.operator .concat], by simp, hxs, fun vs f hv => ?_⟩
    rw [List.append_assoc _ [_]]
    exact ⟨_, .concat hd hv⟩

/-- Tokens that lead up to a factor at a depth: within each open parenthesis they lead up to a
factor. -/
inductive Opened : ℕ → List Token → Prop where
  /-- No parenthesis is open. -/
  | outside {ts : List Token} (h : Lead ts) : Opened 0 ts
  /-- One more parenthesis is open. -/
  | inside {depth : ℕ} {ts us : List Token} (ht : Opened depth ts) (hu : Lead us) :
      Opened (depth + 1) (ts ++ .opening :: us)

/-- A factor may follow a factor at any depth. -/
theorem Opened.append_factor {depth : ℕ} {ts us : List Token} {e : Tree} (h : Opened depth ts)
    (hu : Phrase .factor us e) : Opened depth (ts ++ us) := by
  cases h with
  | outside h => exact .outside (h.append_factor hu)
  | inside h h' =>
    rw [List.append_assoc, List.cons_append]
    exact .inside h (h'.append_factor hu)

/-- A factor may follow a union or a concatenation at any depth. -/
theorem Opened.append_operator {depth : ℕ} {ts us : List Token} {e : Tree} {o : Operator}
    (h : Opened depth ts) (hu : Phrase .factor us e)
    (ho : (Token.operator o).endsOperand = false) :
    Opened depth (ts ++ us ++ [.operator o]) := by
  cases h with
  | outside h => exact .outside (h.append_operator hu ho)
  | inside h h' =>
    rw [List.append_assoc, List.append_assoc, List.cons_append, ← List.append_assoc]
    exact .inside h (h'.append_operator hu ho)

/-- What tokens that have come to a place are: they lead up to a factor, and if an operand has just
been completed they do so up to their last factor. -/
def Place.Describes (p : Place) (ts : List Token) : Prop :=
  if p.operand then
    ∃ xs us e, ts = xs ++ us ∧ Opened p.depth xs ∧ Phrase .factor us e
  else Opened p.depth ts

/-- An operand may begin anywhere. -/
theorem Place.Describes.opened {p : Place} {ts : List Token} (h : p.Describes ts) :
    Opened p.depth ts := by
  unfold Place.Describes at h
  split at h
  · obtain ⟨xs, us, e, rfl, hxs, hus⟩ := h
    exact hxs.append_factor hus
  · exact h

/-- Reading a token keeps the description. -/
theorem Place.Describes.next {p p' : Place} {ts : List Token} {t : Token} (h : p.Describes ts)
    (hp : p.next t = some p') : p'.Describes (ts ++ [t]) := by
  have hopened := h.opened
  cases t with
  | symbol c =>
    rw [Place.next_symbol] at hp
    obtain rfl := Option.some.inj hp
    exact ⟨ts, _, _, rfl, hopened, .ofAtom (.symbol c)⟩
  | opening =>
    rw [Place.next_opening] at hp
    obtain rfl := Option.some.inj hp
    exact .inside hopened lead_nil
  | closing =>
    obtain ⟨depth, rfl, rfl⟩ := Place.next_closing_iff.1 hp
    obtain ⟨xs, us, e, rfl, hxs, hus⟩ := h
    -- The last factor completes the expression in the parentheses, which become a factor.
    cases hxs with
    | @inside _ ys zs hys hzs =>
      obtain ⟨d, hd⟩ := hzs.exists_expression hus
      refine ⟨ys, .opening :: (zs ++ us) ++ [.closing], d, ?_, hys, .ofAtom (.group hd)⟩
      simp
  | operator o =>
    obtain ⟨depth, rfl, rfl⟩ := Place.next_operator_iff.1 hp
    obtain ⟨xs, us, e, rfl, hxs, hus⟩ := h
    -- A repetition extends the last factor; the other operators leave it behind.
    cases o with
    | union => exact hxs.append_operator hus rfl
    | concat => exact hxs.append_operator hus rfl
    | star => exact ⟨xs, _, _, List.append_assoc .., hxs, .star hus⟩
    | plus => exact ⟨xs, _, _, List.append_assoc .., hxs, .plus hus⟩

/-- Reading tokens keeps the description. -/
theorem Place.Describes.foldlM_next {p p' : Place} {ts us : List Token} (h : p.Describes ts)
    (hp : us.foldlM Place.next p = some p') : p'.Describes (ts ++ us) := by
  induction us generalizing p ts with
  | nil =>
    obtain rfl := Option.some.inj hp
    rwa [List.append_nil]
  | cons t us ih =>
    rw [List.foldlM_cons] at hp
    obtain ⟨q, hq, hp⟩ := Option.bind_eq_some_iff.1 hp
    have := ih (h.next hq) hp
    rwa [List.append_assoc] at this

/-- Tokens are an expression exactly when reading them from the left succeeds, and comes to a
complete operand outside of all parentheses. -/
theorem exists_phrase_iff {ts : List Token} :
    (∃ e, Phrase .expression ts e) ↔ ts.foldlM Place.next .start = some .final := by
  constructor
  · rintro ⟨e, h⟩
    exact h.foldlM_next .start
  · intro h
    have hstart : Place.start.Describes [] := Opened.outside lead_nil
    obtain ⟨xs, us, e, rfl, hxs, hus⟩ := hstart.foldlM_next h
    cases hxs with
    | outside hlead => exact hlead.exists_expression hus

end FiniteAutomata.Regex
