import FiniteAutomata.Regex.Postfix
import FiniteAutomata.Proofs.Regex.Grammar

/-!
# Putting expressions in postfix order

The conversion of an expression, its concatenations made explicit, gives the tokens of its syntax
tree in postfix order (`toPostfix_of_phrase`), so a text has one syntax tree at most
(`Phrase.tree_unique`). The induction on phrases is over conversions that are under way: reading a
phrase leaves some operators pending that bind at least as strongly as phrases of its kind are
joined, and completing these gives the tokens of the tree behind what was written before. It needs
that the innermost pending operator before the phrase binds less strongly.
-/

namespace FiniteAutomata.Regex

/-! ## Making concatenations explicit -/

/-- Between two tokens a concatenation is inserted if the first ends an operand and the second
begins one. -/
theorem insertConcatenation_cons_cons (s t : Token) (ts : List Token) :
    insertConcatenation (s :: t :: ts) =
      s :: ((if s.endsOperand && t.beginsOperand then [.operator .concat] else []) ++
        insertConcatenation (t :: ts)) := by
  rw [insertConcatenation]
  split <;> rfl

/-- Insertion works on the parts before and behind a place, and at the place itself. -/
theorem insertConcatenation_append (ts : List Token) (s t : Token) (us : List Token) :
    insertConcatenation (ts ++ s :: t :: us) = insertConcatenation (ts ++ [s]) ++
      ((if s.endsOperand && t.beginsOperand then [.operator .concat] else []) ++
        insertConcatenation (t :: us)) := by
  induction ts with
  | nil => rw [List.nil_append, insertConcatenation_cons_cons]; rfl
  | cons r ts ih =>
    cases ts with
    | nil =>
      simp only [List.nil_append, List.cons_append] at ih ⊢
      rw [insertConcatenation_cons_cons, ih, insertConcatenation_cons_cons]
      simp
    | cons r' ts =>
      simp only [List.cons_append] at ih ⊢
      rw [insertConcatenation_cons_cons, ih, insertConcatenation_cons_cons r r']
      simp

/-- Nothing is inserted before a token that begins no operand. -/
theorem insertConcatenation_append_of_not_begins {t : Token} (ht : t.beginsOperand = false)
    (ts us : List Token) :
    insertConcatenation (ts ++ t :: us) =
      insertConcatenation ts ++ insertConcatenation (t :: us) := by
  rcases List.eq_nil_or_concat ts with rfl | ⟨ts, s, rfl⟩
  · rfl
  · rw [List.concat_eq_append, List.append_assoc, List.singleton_append,
      insertConcatenation_append, ht, Bool.and_false]
    rfl

/-- Nothing is inserted behind a token that ends no operand. -/
theorem insertConcatenation_cons_of_not_ends {t : Token} (ht : t.endsOperand = false)
    (ts : List Token) : insertConcatenation (t :: ts) = t :: insertConcatenation ts := by
  cases ts with
  | nil => rfl
  | cons s ts =>
    rw [insertConcatenation_cons_cons, ht, Bool.false_and]
    rfl

/-- A phrase begins with a token that begins an operand. -/
theorem Phrase.exists_cons {k : Category} {ts : List Token} {e : Tree} (h : Phrase k ts e) :
    ∃ t us, ts = t :: us ∧ t.beginsOperand = true := by
  induction h with
  | symbol c => exact ⟨_, _, rfl, rfl⟩
  | group => exact ⟨_, _, rfl, rfl⟩
  | ofAtom _ ih | ofFactor _ ih | ofTerm _ ih => exact ih
  | star _ ih | plus _ ih | juxtapose _ _ ih _ | concat _ _ ih _ | union _ _ ih _ =>
    obtain ⟨t, us, rfl, ht⟩ := ih
    exact ⟨t, _, rfl, ht⟩

/-- A phrase ends with a token that ends an operand. -/
theorem Phrase.exists_append {k : Category} {ts : List Token} {e : Tree} (h : Phrase k ts e) :
    ∃ us t, ts = us ++ [t] ∧ t.endsOperand = true := by
  induction h with
  | symbol c => exact ⟨[], _, rfl, rfl⟩
  | group => exact ⟨_, _, rfl, rfl⟩
  | ofAtom _ ih | ofFactor _ ih | ofTerm _ ih => exact ih
  | star => exact ⟨_, _, rfl, rfl⟩
  | plus => exact ⟨_, _, rfl, rfl⟩
  | juxtapose _ _ _ ih =>
    obtain ⟨us, t, rfl, ht⟩ := ih
    exact ⟨_, t, (List.append_assoc ..).symm, ht⟩
  | concat _ _ _ ih | union _ _ _ ih =>
    obtain ⟨us, t, rfl, ht⟩ := ih
    exact ⟨_, t, (List.append_assoc _ (_ :: us) [t]).symm, ht⟩

/-- Between two phrases a concatenation is inserted. -/
theorem Phrase.insertConcatenation_append {k k' : Category} {ts us : List Token} {d e : Tree}
    (hd : Phrase k ts d) (he : Phrase k' us e) :
    insertConcatenation (ts ++ us) =
      insertConcatenation ts ++ .operator .concat :: insertConcatenation us := by
  obtain ⟨ts, s, rfl, hs⟩ := hd.exists_append
  obtain ⟨t, us, rfl, ht⟩ := he.exists_cons
  rw [List.append_assoc, List.singleton_append, Regex.insertConcatenation_append, hs, ht]
  rfl

/-- Around a sign that joins two operands nothing is inserted. -/
theorem insertConcatenation_append_operator {o : Operator}
    (ho : (Token.operator o).endsOperand = false) (ts us : List Token) :
    insertConcatenation (ts ++ .operator o :: us) =
      insertConcatenation ts ++ .operator o :: insertConcatenation us := by
  rw [insertConcatenation_append_of_not_begins rfl, insertConcatenation_cons_of_not_ends ho]

/-! ## Conversions of phrases -/

/-- How strongly the operators bind that join phrases of a kind, or stand behind them. -/
def Category.strength : Category → ℕ
  | .expression => 0
  | .term => 1
  | .factor => 2
  | .atom => 3

namespace Pending

/-- The innermost pending operator binds less strongly than a bound; a parenthesis does too. -/
def Weaker (n : ℕ) : List Pending → Prop
  | operator o :: _ => o.strength < n
  | _ => True

/-- What binds less strongly than a bound does so for a greater one. -/
theorem Weaker.mono {m n : ℕ} {pending : List Pending} (h : Weaker m pending) (hmn : m ≤ n) :
    Weaker n pending := by
  match pending, h with
  | [], h => exact h
  | opening _ :: _, h => exact h
  | operator o :: _, h => exact lt_of_lt_of_le h hmn

/-- An operator completes the pending operators that bind as strongly, down to the first one that
binds less strongly. -/
theorem completedBy_append {o : Operator} {operators : List Operator} {pending : List Pending}
    (ho : ∀ o' ∈ operators, o.strength ≤ o'.strength) (h : Weaker o.strength pending) :
    completedBy o (operators.map operator ++ pending) = (operators, pending) := by
  induction operators with
  | nil =>
    rw [List.map_nil, List.nil_append]
    match pending, h with
    | [], _ => rfl
    | opening _ :: _, _ => rfl
    | operator top :: rest, h =>
      rw [completedBy, if_neg (Nat.not_le.2 h)]
  | cons top operators ih =>
    obtain ⟨htop, hrest⟩ := List.forall_mem_cons.1 ho
    rw [List.map_cons, List.cons_append, completedBy, if_pos htop, ih hrest]

/-- The pending operators since a parenthesis are those above it. -/
theorem sinceOpening_append (operators : List Operator) (position : ℕ) (pending : List Pending) :
    sinceOpening (operators.map operator ++ opening position :: pending) =
      (operators, some (position, pending)) := by
  induction operators with
  | nil => rfl
  | cons o operators ih => rw [List.map_cons, List.cons_append, sinceOpening, ih]

/-- Without open parentheses all pending operators are to be completed. -/
theorem sinceOpening_map_operator (operators : List Operator) :
    sinceOpening (operators.map operator) = (operators, none) := by
  induction operators with
  | nil => rfl
  | cons o operators ih => rw [List.map_cons, sinceOpening, ih]

end Pending

namespace Conversion

/-- Reading tokens turns a conversion into another one, at any position. -/
def Reads (s : Conversion) (ts : List Token) (s' : Conversion) : Prop :=
  ∀ position, s.readAll position ts = .ok s'

/-- Reading one token. -/
theorem Reads.of_read {s s' : Conversion} {t : Token}
    (h : ∀ position, s.read position t = .ok s') : s.Reads [t] s' := by
  intro position
  rw [readAll, h]
  rfl

/-- After some tokens the others are read from where these have led. -/
theorem readAll_append {s s' : Conversion} {position : ℕ} {ts us : List Token}
    (h : s.readAll position ts = .ok s') :
    s.readAll position (ts ++ us) = s'.readAll (position + ts.length) us := by
  induction ts generalizing s position with
  | nil =>
    obtain rfl := Except.ok.inj h
    rfl
  | cons t ts ih =>
    rw [readAll] at h
    rw [List.cons_append, readAll]
    cases hread : s.read position t with
    | error e =>
      rw [hread] at h
      contradiction
    | ok next =>
      rw [hread] at h
      rw [List.length_cons, Nat.add_comm ts.length, ← Nat.add_assoc]
      exact ih h

/-- Tokens are read one after the other. -/
theorem Reads.append {s s' s'' : Conversion} {ts us : List Token} (h : s.Reads ts s')
    (h' : s'.Reads us s'') : s.Reads (ts ++ us) s'' := fun position =>
  (readAll_append (h position)).trans (h' _)

end Conversion

/-- Reading a phrase of some kind, with its concatenations explicit, leaves operators pending that
bind as strongly as the kind asks for. With these completed, the tokens of the tree in postfix order
stand behind what was written before. -/
structure ReadsPhrase (k : Category) (ts : List Token) (e : Tree) (s : Conversion)
    (written : List Token) (operators : List Operator) : Prop where
  /-- The operators are pending above those that were pending before. -/
  reads : s.Reads (insertConcatenation ts)
    ⟨written, operators.map .operator ++ s.pending⟩
  /-- The operators bind strongly. -/
  strength_le : ∀ o ∈ operators, k.strength ≤ o.strength
  /-- Completing them gives the tokens of the tree. -/
  completed : (operators.map Token.operator).reverse ++ written =
    e.postorder.reverse ++ s.written

/-- An operator behind a phrase completes it: what is written ends with the tokens of the tree, and
the operator is pending. -/
theorem ReadsPhrase.read_operator {k : Category} {ts : List Token} {e : Tree} {s : Conversion}
    {written : List Token} {operators : List Operator}
    (h : ReadsPhrase k ts e s written operators) {o : Operator} (ho : o.strength = k.strength)
    (hs : Pending.Weaker k.strength s.pending) :
    s.Reads (insertConcatenation ts ++ [.operator o])
      ⟨e.postorder.reverse ++ s.written, .operator o :: s.pending⟩ := by
  refine h.reads.append (.of_read fun position => ?_)
  have hcompleted : Pending.completedBy o (operators.map .operator ++ s.pending) =
      (operators, s.pending) :=
    Pending.completedBy_append (by rw [ho]; exact h.strength_le) (by rwa [ho])
  show Except.ok (Conversion.write _ _ _) = _
  rw [hcompleted, ← h.completed]
  rfl

/-- A postfix operator behind a phrase makes a phrase of the same kind. -/
theorem ReadsPhrase.repeat_operand {k : Category} {ts : List Token} {e f : Tree} {s : Conversion}
    {written : List Token} {operators : List Operator}
    (h : ReadsPhrase k ts e s written operators) {o : Operator} (ho : o.strength = k.strength)
    (hs : Pending.Weaker k.strength s.pending)
    (hf : f.postorder = e.postorder ++ [.operator o]) :
    ReadsPhrase k (ts ++ [.operator o]) f s (e.postorder.reverse ++ s.written) [o] where
  reads := by
    rw [insertConcatenation_append_of_not_begins rfl]
    exact h.read_operator ho hs
  strength_le o' ho' := by
    rw [List.mem_singleton.1 ho', ho]
  completed := by
    rw [hf, List.reverse_append]
    rfl

/-- A sign between two phrases makes a phrase of the kind of the first one, when the second one is
of a kind that binds more strongly. -/
theorem ReadsPhrase.join {k k' : Category} {ts us ws : List Token} {d e f : Tree} {s : Conversion}
    {written : List Token} {operators : List Operator}
    (h : ReadsPhrase k ts d s written operators) {o : Operator} (ho : o.strength = k.strength)
    (hs : Pending.Weaker k.strength s.pending) (hk : k.strength < k'.strength)
    (he : ∀ s' : Conversion, Pending.Weaker k'.strength s'.pending →
      ∃ written operators, ReadsPhrase k' us e s' written operators)
    (hws : insertConcatenation ws =
      insertConcatenation ts ++ .operator o :: insertConcatenation us)
    (hf : f.postorder = d.postorder ++ e.postorder ++ [.operator o]) :
    ∃ written operators, ReadsPhrase k ws f s written operators := by
  -- The sign completes the first phrase and is pending while the second one is read.
  have hweaker : Pending.Weaker k'.strength (.operator o :: s.pending) := by
    show o.strength < k'.strength
    omega
  obtain ⟨written', operators', h'⟩ :=
    he ⟨d.postorder.reverse ++ s.written, .operator o :: s.pending⟩ hweaker
  -- Then the operators of the second phrase are pending above the sign.
  refine ⟨written', operators' ++ [o], ?_, ?_, ?_⟩
  · have hreads := (h.read_operator ho hs).append h'.reads
    rw [List.append_assoc] at hreads
    rw [hws, List.map_append, List.append_assoc]
    exact hreads
  · intro o' ho'
    rcases List.mem_append.1 ho' with ho' | ho'
    · have := h'.strength_le o' ho'
      omega
    · rw [List.mem_singleton.1 ho', ho]
  · have hcompleted : (operators'.map Token.operator).reverse ++ written' =
        e.postorder.reverse ++ (d.postorder.reverse ++ s.written) := h'.completed
    rw [List.map_append, List.reverse_append, List.append_assoc, hcompleted, hf]
    simp

/-- A phrase that is pending as one of a kind that binds more strongly is pending as one of its
own kind. -/
theorem ReadsPhrase.lift {k k' : Category} {ts : List Token} {e : Tree} {s : Conversion}
    {written : List Token} {operators : List Operator}
    (h : ReadsPhrase k' ts e s written operators) (hk : k.strength ≤ k'.strength) :
    ReadsPhrase k ts e s written operators :=
  ⟨h.reads, fun o ho => hk.trans (h.strength_le o ho), h.completed⟩

/-- A phrase in parentheses leaves nothing pending. -/
theorem ReadsPhrase.group {ts : List Token} {e : Tree} {s : Conversion}
    (h : ∀ s' : Conversion, Pending.Weaker 0 s'.pending →
      ∃ written operators, ReadsPhrase .expression ts e s' written operators) :
    ReadsPhrase .atom (.opening :: ts ++ [.closing]) e s (e.postorder.reverse ++ s.written) [] where
  reads position := by
    obtain ⟨written, operators, hread⟩ := h ⟨s.written, .opening position :: s.pending⟩ trivial
    -- The closing parenthesis completes what is pending above its partner.
    have hclosing : Conversion.read ⟨written, operators.map .operator ++ .opening position ::
        s.pending⟩ (position + 1 + (insertConcatenation ts).length) .closing =
          .ok ⟨e.postorder.reverse ++ s.written, s.pending⟩ := by
      have hcompleted : (operators.map Token.operator).reverse ++ written =
          e.postorder.reverse ++ s.written := hread.completed
      rw [Conversion.read, Pending.sinceOpening_append, ← hcompleted]
      rfl
    rw [insertConcatenation_append_of_not_begins rfl, insertConcatenation_cons_of_not_ends rfl,
      List.cons_append, Conversion.readAll]
    show Conversion.readAll _ _ _ = _
    rw [Conversion.readAll_append (hread.reads _)]
    show Conversion.readAll _ _ [.closing] = _
    rw [Conversion.readAll, hclosing]
    rfl
  strength_le := by simp
  completed := rfl

/-- A phrase is read as described when what is pending before it binds less strongly. -/
theorem Phrase.exists_readsPhrase {k : Category} {ts : List Token} {e : Tree} (h : Phrase k ts e)
    (s : Conversion) (hs : Pending.Weaker k.strength s.pending) :
    ∃ written operators, ReadsPhrase k ts e s written operators := by
  -- A sign is pending for its second operand, which is why the claim is about every conversion.
  induction h generalizing s with
  | symbol c => exact ⟨_, [], .of_read fun _ => rfl, by simp, rfl⟩
  | group _ ih => exact ⟨_, _, .group ih⟩
  | ofAtom _ ih =>
    obtain ⟨written, operators, hread⟩ := ih s (hs.mono (by decide))
    exact ⟨written, operators, hread.lift (by decide)⟩
  | star _ ih =>
    obtain ⟨written, operators, hread⟩ := ih s hs
    exact ⟨_, _, hread.repeat_operand rfl hs rfl⟩
  | plus _ ih =>
    obtain ⟨written, operators, hread⟩ := ih s hs
    exact ⟨_, _, hread.repeat_operand rfl hs rfl⟩
  | ofFactor _ ih =>
    obtain ⟨written, operators, hread⟩ := ih s (hs.mono (by decide))
    exact ⟨written, operators, hread.lift (by decide)⟩
  | juxtapose hd he ihd ihe =>
    obtain ⟨written, operators, hread⟩ := ihd s hs
    exact hread.join rfl hs (by decide) ihe (hd.insertConcatenation_append he) rfl
  | concat _ _ ihd ihe =>
    obtain ⟨written, operators, hread⟩ := ihd s hs
    exact hread.join rfl hs (by decide) ihe (insertConcatenation_append_operator rfl ..) rfl
  | ofTerm _ ih =>
    obtain ⟨written, operators, hread⟩ := ih s (hs.mono (by decide))
    exact ⟨written, operators, hread.lift (by decide)⟩
  | union _ _ ihd ihe =>
    obtain ⟨written, operators, hread⟩ := ihd s hs
    exact hread.join rfl hs (by decide) ihe (insertConcatenation_append_operator rfl ..) rfl

/-- The conversion of an expression with its concatenations explicit gives the tokens of its tree in
postfix order. -/
theorem toPostfix_of_phrase {ts : List Token} {e : Tree} (h : Phrase .expression ts e) :
    toPostfix (insertConcatenation ts) = .ok e.postorder := by
  obtain ⟨written, operators, hread⟩ := h.exists_readsPhrase ⟨[], []⟩ trivial
  have hreads := hread.reads 0
  have hcompleted : (operators.map Token.operator).reverse ++ written =
      e.postorder.reverse ++ [] := hread.completed
  rw [List.append_nil] at hreads hcompleted
  rw [toPostfix, hreads]
  show Conversion.finish _ = _
  rw [Conversion.finish, Pending.sinceOpening_map_operator]
  show Except.ok ((operators.map Token.operator).reverse ++ written).reverse = _
  rw [hcompleted, List.reverse_reverse]

/-- An expression has one syntax tree only. -/
theorem Phrase.tree_unique {ts : List Token} {d e : Tree} (hd : Phrase .expression ts d)
    (he : Phrase .expression ts e) : d = e := by
  have h := toPostfix_of_phrase hd
  rw [toPostfix_of_phrase he] at h
  exact Tree.postorder_injective (Except.ok.inj h).symm

end FiniteAutomata.Regex
