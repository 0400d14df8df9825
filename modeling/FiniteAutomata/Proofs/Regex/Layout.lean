import FiniteAutomata.Proofs.Regex.Printing

/-!
# Layouts of syntax trees

A layout is a syntax tree with all that is left to whoever writes it: a concatenation may have its
sign or none, and any part may stand in parentheses, in several pairs of them if need be. The tokens
are written as the layout says and no parentheses are added, so not every layout is read as its own
tree. Those that are have parentheses where the signs demand them: around an operand that binds less
strongly than the operator, and around a right operand that is joined by the same operator
(`Adequate`). `toPostfix_tokens_iff` says that these parentheses are enough, whatever others there
are, and that none of them can be spared.

That they are enough is an induction on layouts, each of which is a phrase of its kind. For the
converse, any layout can be read, as some tree; if it is the tree of the layout, then the phrase and
the layout are compared from the outside to the inside. They have the same outermost operator and
part at the same place: their first operands have as many symbols, and tokens that complete an
operand are not completed once more without another symbol (`Whole.append_inj`), nor within
parentheses that open before them (`Whole.enclosed_ne_append`).
-/

namespace FiniteAutomata.Regex

/-- A way of writing a syntax tree. -/
inductive Layout where
  /-- A letter. -/
  | symbol (c : Char)
  /-- A union with its sign. -/
  | union (left right : Layout)
  /-- A concatenation without a sign. -/
  | juxtapose (left right : Layout)
  /-- A concatenation with its sign. -/
  | concat (left right : Layout)
  /-- Any number of repetitions. -/
  | star (inner : Layout)
  /-- One repetition or more. -/
  | plus (inner : Layout)
  /-- A pair of parentheses around a part. -/
  | group (inner : Layout)

namespace Layout

/-- The tree that is written. -/
def tree : Layout → Tree
  | symbol c => .symbol c
  | union left right => .union left.tree right.tree
  | juxtapose left right => .concat left.tree right.tree
  | concat left right => .concat left.tree right.tree
  | star inner => .star inner.tree
  | plus inner => .plus inner.tree
  | group inner => inner.tree

/-- The tokens that it is written with. -/
def tokens : Layout → List Token
  | symbol c => [.symbol c]
  | union left right => left.tokens ++ .operator .union :: right.tokens
  | juxtapose left right => left.tokens ++ right.tokens
  | concat left right => left.tokens ++ .operator .concat :: right.tokens
  | star inner => inner.tokens ++ [.operator .star]
  | plus inner => inner.tokens ++ [.operator .plus]
  | group inner => .opening :: inner.tokens ++ [.closing]

/-- The operator that holds the tokens together, unless parentheses do. -/
def top? : Layout → Option Operator
  | symbol _ => none
  | union _ _ => some .union
  | juxtapose _ _ => some .concat
  | concat _ _ => some .concat
  | star _ => some .star
  | plus _ => some .plus
  | group _ => none

/-- An operand of an operator needs no more parentheses: it is held together at least as strongly,
and on the right not by the same operator. -/
def Fits (o : Operator) (onRight : Bool) (l : Layout) : Prop :=
  ∀ o' ∈ l.top?, o.strength ≤ o'.strength ∧ (onRight = true → o' ≠ o)

/-- There are parentheses wherever the operators demand them. -/
def Adequate : Layout → Prop
  | symbol _ => True
  | union left right =>
    (left.Fits .union false ∧ right.Fits .union true) ∧ left.Adequate ∧ right.Adequate
  | juxtapose left right =>
    (left.Fits .concat false ∧ right.Fits .concat true) ∧ left.Adequate ∧ right.Adequate
  | concat left right =>
    (left.Fits .concat false ∧ right.Fits .concat true) ∧ left.Adequate ∧ right.Adequate
  | star inner => inner.Fits .star false ∧ inner.Adequate
  | plus inner => inner.Fits .plus false ∧ inner.Adequate
  | group inner => inner.Adequate

instance (o : Operator) (onRight : Bool) (l : Layout) : Decidable (l.Fits o onRight) :=
  match h : l.top? with
  | none => .isTrue fun o' ho' => absurd (h ▸ ho') (Option.not_mem_none o')
  | some o' =>
    decidable_of_iff (o.strength ≤ o'.strength ∧ (onRight = true → o' ≠ o)) (by simp [Fits, h])

instance decidableAdequate : (l : Layout) → Decidable l.Adequate
  | symbol _ => .isTrue trivial
  | union left right =>
    have := decidableAdequate left
    have := decidableAdequate right
    inferInstanceAs (Decidable ((_ ∧ _) ∧ left.Adequate ∧ right.Adequate))
  | juxtapose left right =>
    have := decidableAdequate left
    have := decidableAdequate right
    inferInstanceAs (Decidable ((_ ∧ _) ∧ left.Adequate ∧ right.Adequate))
  | concat left right =>
    have := decidableAdequate left
    have := decidableAdequate right
    inferInstanceAs (Decidable ((_ ∧ _) ∧ left.Adequate ∧ right.Adequate))
  | star inner =>
    have := decidableAdequate inner
    inferInstanceAs (Decidable (_ ∧ inner.Adequate))
  | plus inner =>
    have := decidableAdequate inner
    inferInstanceAs (Decidable (_ ∧ inner.Adequate))
  | group inner => decidableAdequate inner

/-! ## Adequate layouts are phrases -/

/-- The kind of phrase that a layout is. -/
def kind (l : Layout) : Category :=
  match l.top? with
  | none => .atom
  | some .union => .expression
  | some .concat => .term
  | some .star => .factor
  | some .plus => .factor

/-- An operand fits if phrases of its kind bind at least as strongly as the operator. -/
theorem fits_left_iff {o : Operator} {l : Layout} :
    l.Fits o false ↔ o.strength ≤ l.kind.strength := by
  cases o <;> cases l <;> simp [Fits, top?, kind, Operator.strength, Category.strength]

/-- A right operand fits if phrases of its kind bind more strongly than the operator. -/
theorem fits_right_iff {o : Operator} (ho : (Token.operator o).endsOperand = false) {l : Layout} :
    l.Fits o true ↔ o.strength < l.kind.strength := by
  cases o with
  | star | plus => contradiction
  | union | concat =>
    cases l <;> simp [Fits, top?, kind, Operator.strength, Category.strength]

/-- An adequate layout is a phrase of its kind with its tree. -/
theorem Adequate.phrase {l : Layout} (h : l.Adequate) : Phrase l.kind l.tokens l.tree := by
  induction l with
  | symbol c => exact .symbol c
  | group inner ih => exact .group ((ih h).lift (Nat.zero_le _))
  | union left right hl hr =>
    obtain ⟨⟨hleft, hright⟩, hleft', hright'⟩ := h
    exact .union ((hl hleft').lift (fits_left_iff.1 hleft))
      ((hr hright').lift ((fits_right_iff rfl).1 hright))
  | juxtapose left right hl hr =>
    obtain ⟨⟨hleft, hright⟩, hleft', hright'⟩ := h
    exact .juxtapose ((hl hleft').lift (fits_left_iff.1 hleft))
      ((hr hright').lift ((fits_right_iff rfl).1 hright))
  | concat left right hl hr =>
    obtain ⟨⟨hleft, hright⟩, hleft', hright'⟩ := h
    exact .concat ((hl hleft').lift (fits_left_iff.1 hleft))
      ((hr hright').lift ((fits_right_iff rfl).1 hright))
  | star inner ih => exact .star ((ih h.2).lift (fits_left_iff.1 h.1))
  | plus inner ih => exact .plus ((ih h.2).lift (fits_left_iff.1 h.1))

/-- A phrase is written as an adequate layout that binds as strongly as phrases of its kind. -/
theorem exists_adequate_of_phrase {k : Category} {ts : List Token} {e : Tree} (h : Phrase k ts e) :
    ∃ l : Layout, k.strength ≤ l.kind.strength ∧ l.Adequate ∧ l.tokens = ts ∧ l.tree = e := by
  induction h with
  | symbol c => exact ⟨.symbol c, le_rfl, trivial, rfl, rfl⟩
  | group _ ih =>
    obtain ⟨l, -, hl, rfl, rfl⟩ := ih
    exact ⟨.group l, le_rfl, hl, rfl, rfl⟩
  | ofAtom _ ih | ofFactor _ ih | ofTerm _ ih =>
    obtain ⟨l, hk, hl⟩ := ih
    exact ⟨l, (by decide : _ ≤ _).trans hk, hl⟩
  | star _ ih =>
    obtain ⟨l, hk, hl, rfl, rfl⟩ := ih
    exact ⟨.star l, le_rfl, ⟨fits_left_iff.2 hk, hl⟩, rfl, rfl⟩
  | plus _ ih =>
    obtain ⟨l, hk, hl, rfl, rfl⟩ := ih
    exact ⟨.plus l, le_rfl, ⟨fits_left_iff.2 hk, hl⟩, rfl, rfl⟩
  | juxtapose _ _ ihd ihe =>
    obtain ⟨l, hk, hl, rfl, rfl⟩ := ihd
    obtain ⟨m, hk', hm, rfl, rfl⟩ := ihe
    have hfits : l.Fits .concat false ∧ m.Fits .concat true :=
      ⟨fits_left_iff.2 hk, (fits_right_iff rfl).2 hk'⟩
    exact ⟨.juxtapose l m, le_rfl, ⟨hfits, hl, hm⟩, rfl, rfl⟩
  | concat _ _ ihd ihe =>
    obtain ⟨l, hk, hl, rfl, rfl⟩ := ihd
    obtain ⟨m, hk', hm, rfl, rfl⟩ := ihe
    have hfits : l.Fits .concat false ∧ m.Fits .concat true :=
      ⟨fits_left_iff.2 hk, (fits_right_iff rfl).2 hk'⟩
    exact ⟨.concat l m, le_rfl, ⟨hfits, hl, hm⟩, rfl, rfl⟩
  | union _ _ ihd ihe =>
    obtain ⟨l, hk, hl, rfl, rfl⟩ := ihd
    obtain ⟨m, hk', hm, rfl, rfl⟩ := ihe
    have hfits : l.Fits .union false ∧ m.Fits .union true :=
      ⟨fits_left_iff.2 hk, (fits_right_iff rfl).2 hk'⟩
    exact ⟨.union l m, le_rfl, ⟨hfits, hl, hm⟩, rfl, rfl⟩

/-- The expressions of a tree are its adequate layouts. -/
theorem phrase_iff_exists_adequate {ts : List Token} {e : Tree} :
    Phrase .expression ts e ↔ ∃ l : Layout, l.Adequate ∧ l.tokens = ts ∧ l.tree = e := by
  constructor
  · intro h
    obtain ⟨l, -, hl⟩ := exists_adequate_of_phrase h
    exact ⟨l, hl⟩
  · rintro ⟨l, hl, rfl, rfl⟩
    exact hl.phrase.lift (Nat.zero_le _)

end Layout

/-! ## Where operands end -/

/-- Wherever the tokens are read, they complete an operand at the same depth. -/
def Whole (ts : List Token) : Prop := ∀ p : Place, ts.foldlM Place.next p = some ⟨p.depth, true⟩

/-- The symbols among tokens, in turn. -/
def symbols (ts : List Token) : List Char :=
  ts.filterMap fun
    | .symbol c => some c
    | _ => none

/-- The tokens go on after an operand, and do not extend it. -/
def Resumes (ts : List Token) : Prop :=
  ∀ t ∈ ts.head?, t.beginsOperand = true ∨ t.endsOperand = false

/-- One more parenthesis has been opened before. -/
def Place.deeper (p : Place) : Place := ⟨p.depth + 1, p.operand⟩

/-- A token that fits does so within more parentheses. -/
theorem Place.next_deeper {p q : Place} {t : Token} (h : p.next t = some q) :
    p.deeper.next t = some q.deeper := by
  obtain ⟨depth, operand⟩ := p
  cases t with
  | symbol c =>
    rw [next_symbol] at h ⊢
    obtain rfl := Option.some.inj h
    rfl
  | opening =>
    rw [next_opening] at h ⊢
    obtain rfl := Option.some.inj h
    rfl
  | closing =>
    obtain ⟨depth, hp, rfl⟩ := next_closing_iff.1 h
    rw [hp]
    rfl
  | operator o =>
    obtain ⟨depth, hp, rfl⟩ := next_operator_iff.1 h
    rw [hp]
    rfl

/-- Tokens that fit do so within more parentheses. -/
theorem Place.foldlM_next_deeper {p q : Place} {ts : List Token}
    (h : ts.foldlM Place.next p = some q) : ts.foldlM Place.next p.deeper = some q.deeper := by
  induction ts generalizing p with
  | nil =>
    obtain rfl := Option.some.inj h
    rfl
  | cons t ts ih =>
    rw [List.foldlM_cons] at h
    obtain ⟨r, hr, hrest⟩ := Option.bind_eq_some_iff.1 h
    rw [List.foldlM_cons, next_deeper hr]
    exact ih hrest

/-- Whether an operand is complete depends on the last token only. -/
theorem Place.operand_of_next {p q : Place} {t : Token} (h : p.next t = some q) :
    q.operand = t.endsOperand := by
  unfold next at h
  split at h
  · obtain ⟨depth, -, rfl⟩ := Option.map_eq_some_iff.1 h
    rfl
  · contradiction

/-- Where no operand is complete, only a symbol completes one. -/
theorem Place.operand_foldlM_next {p q : Place} {ts : List Token} (hp : p.operand = false)
    (hts : symbols ts = []) (h : ts.foldlM Place.next p = some q) : q.operand = false := by
  induction ts generalizing p with
  | nil =>
    obtain rfl := Option.some.inj h
    exact hp
  | cons t ts ih =>
    rw [List.foldlM_cons] at h
    obtain ⟨r, hr, hrest⟩ := Option.bind_eq_some_iff.1 h
    cases t with
    | symbol c => contradiction
    | opening => exact ih (operand_of_next hr) hts hrest
    | closing =>
      obtain ⟨depth, rfl, -⟩ := next_closing_iff.1 hr
      contradiction
    | operator o =>
      obtain ⟨depth, rfl, -⟩ := next_operator_iff.1 hr
      contradiction

namespace Whole

variable {ts us vs : List Token}

/-- Behind an operand reading goes on at the same depth. -/
theorem foldlM_append (hts : Whole ts) (us : List Token) (p : Place) :
    (ts ++ us).foldlM Place.next p = us.foldlM Place.next ⟨p.depth, true⟩ := by
  rw [List.foldlM_append, hts p]
  rfl

/-- Operands may follow each other. -/
theorem append (hts : Whole ts) (hus : Whole us) : Whole (ts ++ us) := by
  intro p
  rw [hts.foldlM_append, hus]

/-- Operands may be joined by an operator. -/
theorem join (hts : Whole ts) (hus : Whole us) (o : Operator) :
    Whole (ts ++ .operator o :: us) := by
  intro p
  rw [hts.foldlM_append, List.foldlM_cons, Place.next_operator_iff.2 ⟨_, rfl, rfl⟩]
  exact hus _

/-- An operand may be repeated. -/
theorem append_operator (hts : Whole ts) {o : Operator}
    (ho : (Token.operator o).endsOperand = true) : Whole (ts ++ [.operator o]) := by
  intro p
  rw [hts.foldlM_append, List.foldlM_cons, Place.next_operator_iff.2 ⟨_, rfl, rfl⟩, ho]
  rfl

/-- An operand may be put in parentheses. -/
theorem group (hts : Whole ts) : Whole (.opening :: ts ++ [.closing]) := by
  intro p
  rw [List.cons_append, List.foldlM_cons, p.next_opening, Option.bind_eq_bind, Option.bind_some,
    hts.foldlM_append]
  rfl

/-- An operand has tokens. -/
theorem ne_nil (hts : Whole ts) : ts ≠ [] := by
  rintro rfl
  exact nomatch hts .start

/-- No operand begins with an operator. -/
theorem ne_operator (hts : Whole ts) (o : Operator) (us : List Token) : ts ≠ .operator o :: us := by
  rintro rfl
  exact nomatch hts .start

/-- What is in parentheses, these included, is not completed as an operand before its end. -/
theorem enclosed_ne_append (hts : Whole ts) (hus : Whole us) (hvs : vs ≠ []) :
    .opening :: ts ++ [.closing] ≠ us ++ vs := by
  intro h
  obtain ⟨u, us, rfl⟩ := List.exists_cons_of_ne_nil hus.ne_nil
  obtain ⟨vs, v, rfl⟩ := (List.eq_nil_or_concat vs).resolve_left hvs
  rw [List.concat_eq_append, ← List.append_assoc] at h
  obtain ⟨h, -⟩ := List.append_inj' h rfl
  rw [List.cons_append] at h
  obtain ⟨rfl, rfl⟩ := List.cons.inj h
  -- What follows the parenthesis can be read without it, and within it comes to one depth more.
  have hread := hts .start
  rw [List.foldlM_append] at hread
  obtain ⟨q, hq, -⟩ := Option.bind_eq_some_iff.1 hread
  have hwhole := hus .start
  rw [List.foldlM_cons, Place.next_opening] at hwhole
  have hfinal : some q.deeper = some ⟨0, true⟩ :=
    (Place.foldlM_next_deeper hq).symm.trans hwhole
  exact Nat.succ_ne_zero q.depth (congrArg Place.depth (Option.some.inj hfinal))

/-- Tokens that go on after an operand do not complete it once more without another symbol. -/
theorem eq_nil_of_append (hts : Whole ts) (h : Whole (ts ++ us)) (hus : symbols us = [])
    (hresumes : Resumes (us ++ vs)) : us = [] := by
  cases us with
  | nil => rfl
  | cons u us =>
    have hread := h .start
    rw [hts.foldlM_append, List.foldlM_cons] at hread
    obtain ⟨q, hq, hrest⟩ := Option.bind_eq_some_iff.1 hread
    have hoperand : q.operand = false := by
      rw [Place.operand_of_next hq]
      cases u with
      | symbol c => contradiction
      | opening => rfl
      | closing | operator o => exact (hresumes _ rfl).resolve_left Bool.false_ne_true
    -- The rest has no symbol either, so it completes no operand.
    have hrest' : symbols us = [] := by
      cases u with
      | symbol c => contradiction
      | opening | closing | operator o => exact hus
    exact nomatch Place.operand_foldlM_next hoperand hrest' hrest

/-- Operands with the same number of symbols that go on to the same tokens are the same. -/
theorem append_inj (hts : Whole ts) (hus : Whole us) {ts' us' : List Token}
    (hsymbols : symbols ts = symbols us) (hts' : Resumes ts') (hus' : Resumes us')
    (h : ts ++ ts' = us ++ us') : ts = us ∧ ts' = us' := by
  rcases List.append_eq_append_iff.1 h with ⟨vs, rfl, rfl⟩ | ⟨vs, rfl, rfl⟩
  · have hvs : symbols vs = [] := by simpa [symbols] using hsymbols
    obtain rfl := hts.eq_nil_of_append hus hvs hts'
    simp
  · have hvs : symbols vs = [] := by simpa [symbols] using hsymbols
    obtain rfl := hus.eq_nil_of_append hts hvs hus'
    simp

end Whole

/-- The sign of a union or a concatenation goes on after an operand. -/
theorem resumes_operator {o : Operator} (ho : (Token.operator o).endsOperand = false)
    (ts : List Token) : Resumes (.operator o :: ts) := by
  intro u hu
  obtain rfl := Option.some.inj hu
  exact .inr ho

namespace Layout

/-- The symbols of a layout are those of its tree, in the same order. -/
theorem symbols_tokens (l : Layout) : symbols l.tokens = symbols l.tree.postorder := by
  induction l with
  | symbol => rfl
  | group _ ih | star _ ih | plus _ ih => simpa [symbols, tokens, tree, Tree.postorder] using ih
  | juxtapose _ _ ihl ihr | concat _ _ ihl ihr | union _ _ ihl ihr =>
    simpa [symbols, tokens, tree, Tree.postorder] using congrArg₂ (· ++ ·) ihl ihr

/-- A layout is an operand, adequate or not. -/
theorem whole_tokens (l : Layout) : Whole l.tokens := by
  induction l with
  | symbol c => exact (Phrase.symbol c).foldlM_next
  | group _ ih => exact ih.group
  | star _ ih | plus _ ih => exact ih.append_operator rfl
  | juxtapose _ _ ihl ihr => exact ihl.append ihr
  | concat _ _ ihl ihr | union _ _ ihl ihr => exact ihl.join ihr _

/-- A layout goes on after an operand. -/
theorem resumes_tokens (l : Layout) : Resumes l.tokens := by
  obtain ⟨e, he⟩ := exists_phrase_iff.2 (l.whole_tokens .start)
  obtain ⟨t, us, hts, ht⟩ := he.exists_cons
  intro u hu
  rw [hts] at hu
  obtain rfl := Option.some.inj hu
  exact .inl ht

/-! ## The layout of a tree with given tokens -/

/-- Layouts of one tree from which the same tokens go on after an operand are written alike. -/
theorem append_inj {l m : Layout} {ts us : List Token} (he : l.tree = m.tree) (hts : Resumes ts)
    (hus : Resumes us) (h : l.tokens ++ ts = m.tokens ++ us) : l.tokens = m.tokens ∧ ts = us := by
  refine l.whole_tokens.append_inj m.whole_tokens ?_ hts hus h
  rw [l.symbols_tokens, he, m.symbols_tokens]

/-- Tokens that end differently are different. -/
theorem append_singleton_ne {ts us : List Token} {t u : Token} (h : t ≠ u) :
    ts ++ [t] ≠ us ++ [u] := by
  intro heq
  exact h (List.singleton_inj.1 (List.append_inj' heq rfl).2)

/-- A layout whose tokens are an operand in parentheses is a pair of parentheses. -/
theorem exists_eq_group {l : Layout} {ts : List Token} (hts : Whole ts)
    (h : l.tokens = .opening :: ts ++ [.closing]) : ∃ inner, l = group inner ∧ inner.tokens = ts := by
  cases l with
  | symbol d => simp [tokens] at h
  | group inner => exact ⟨inner, rfl, List.append_cancel_right (List.cons.inj h).2⟩
  | union left right | concat left right =>
    exact absurd h.symm (hts.enclosed_ne_append left.whole_tokens (List.cons_ne_nil _ _))
  | juxtapose left right =>
    exact absurd h.symm (hts.enclosed_ne_append left.whole_tokens right.whole_tokens.ne_nil)
  | star inner | plus inner => exact absurd h (append_singleton_ne (by decide))

/-- A layout is known by its tokens and its tree. -/
theorem eq_of_tokens_eq {l m : Layout} (hts : l.tokens = m.tokens) (he : l.tree = m.tree) :
    l = m := by
  induction l generalizing m with
  | symbol c =>
    cases m with
    | symbol d => rw [Tree.symbol.inj he]
    | group inner => simp [tokens] at hts
    | union | juxtapose | concat | star | plus => contradiction
  | group inner ih =>
    obtain ⟨inner', rfl, hinner⟩ := exists_eq_group inner.whole_tokens hts.symm
    rw [ih hinner.symm he]
  | union left right hl hr =>
    cases m with
    | union left' right' =>
      obtain ⟨hleft, hright⟩ := Tree.union.inj he
      obtain ⟨hts, hus⟩ := append_inj hleft (resumes_operator rfl _) (resumes_operator rfl _) hts
      rw [hl hts hleft, hr (List.cons.inj hus).2 hright]
    | group inner => exact nomatch exists_eq_group inner.whole_tokens hts
    | symbol | juxtapose | concat | star | plus => contradiction
  | juxtapose left right hl hr =>
    cases m with
    | juxtapose left' right' =>
      obtain ⟨hleft, hright⟩ := Tree.concat.inj he
      obtain ⟨hts, hus⟩ := append_inj hleft right.resumes_tokens right'.resumes_tokens hts
      rw [hl hts hleft, hr hus hright]
    | concat left' right' =>
      obtain ⟨hleft, -⟩ := Tree.concat.inj he
      obtain ⟨-, hus⟩ := append_inj hleft right.resumes_tokens (resumes_operator rfl _) hts
      exact absurd hus (right.whole_tokens.ne_operator _ _)
    | group inner => exact nomatch exists_eq_group inner.whole_tokens hts
    | symbol | union | star | plus => contradiction
  | concat left right hl hr =>
    cases m with
    | concat left' right' =>
      obtain ⟨hleft, hright⟩ := Tree.concat.inj he
      obtain ⟨hts, hus⟩ := append_inj hleft (resumes_operator rfl _) (resumes_operator rfl _) hts
      rw [hl hts hleft, hr (List.cons.inj hus).2 hright]
    | juxtapose left' right' =>
      obtain ⟨hleft, -⟩ := Tree.concat.inj he
      obtain ⟨-, hus⟩ := append_inj hleft (resumes_operator rfl _) right'.resumes_tokens hts
      exact absurd hus.symm (right'.whole_tokens.ne_operator _ _)
    | group inner => exact nomatch exists_eq_group inner.whole_tokens hts
    | symbol | union | star | plus => contradiction
  | star inner ih =>
    cases m with
    | star inner' => rw [ih (List.append_cancel_right hts) (Tree.star.inj he)]
    | group inner' => exact nomatch exists_eq_group inner'.whole_tokens hts
    | symbol | union | juxtapose | concat | plus => contradiction
  | plus inner ih =>
    cases m with
    | plus inner' => rw [ih (List.append_cancel_right hts) (Tree.plus.inj he)]
    | group inner' => exact nomatch exists_eq_group inner'.whole_tokens hts
    | symbol | union | juxtapose | concat | star => contradiction

/-- A tree is read back from a layout exactly if the layout is adequate: then its tokens, with every
concatenation made explicit, are put in postfix order as those of the tree. -/
theorem toPostfix_tokens_iff (l : Layout) :
    toPostfix (insertConcatenation l.tokens) = .ok l.tree.postorder ↔ l.Adequate := by
  constructor
  · intro h
    -- The tokens are those of some adequate layout, and the tree is its tree.
    obtain ⟨e, he⟩ := exists_phrase_iff.2 (l.whole_tokens .start)
    obtain ⟨m, hm, hts, rfl⟩ := phrase_iff_exists_adequate.1 he
    rw [toPostfix_of_phrase he] at h
    have htree : l.tree = m.tree := Tree.postorder_injective (Except.ok.inj h).symm
    rw [eq_of_tokens_eq hts.symm htree]
    exact hm
  · intro h
    exact toPostfix_of_phrase (h.phrase.lift (Nat.zero_le _))

/-- A union before another letter needs its parentheses, the letter may have more, and the sign of
the concatenation makes no difference. -/
example :
    let choice := union (symbol 'a') (symbol 'b')
    ¬ (juxtapose choice (symbol 'c')).Adequate ∧
      (juxtapose (group choice) (symbol 'c')).Adequate ∧
      (concat (group choice) (group (group (symbol 'c')))).Adequate := by decide

end Layout

end FiniteAutomata.Regex
