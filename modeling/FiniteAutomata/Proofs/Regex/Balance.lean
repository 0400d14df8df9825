import FiniteAutomata.Proofs.Regex.Conservation
import FiniteAutomata.Proofs.Regex.Postfix
import Mathlib.Algebra.BigOperators.Group.List.Basic
import Mathlib.Algebra.Ring.Int.Defs

/-!
# Balance of operands

Nothing before the stack of trees looks at whether operators stand between operands, so the stack
has to notice. It does, for all malformed texts, by a count. A token has as its weight what it adds
to the height of the stack; the weight of tokens does not depend on their order. Putting tokens in
postfix order keeps their weight, and making concatenations explicit brings it down: after any token
what follows weighs at most what the token lacks (`weight_insertConcatenation_le`). Each token out
of place costs one, and an end without an operand another. So tokens leave at most one tree, and if
they leave one then all of them are in place (`exists_phrase_of_foldlM_push`).
-/

namespace FiniteAutomata.Regex

/-- What a token adds to the height of the stack. -/
def Token.weight : Token → ℤ
  | .symbol _ => 1
  | .operator .union => -1
  | .operator .concat => -1
  | _ => 0

/-- What may still be added after a token: an operand, unless the token has just ended one. -/
def Token.lack (t : Token) : ℤ := if t.endsOperand then 0 else 1

/-- The weight of tokens together. -/
def weight (ts : List Token) : ℤ := (ts.map Token.weight).sum

/-- The first token and the others weigh what they weigh together. -/
theorem weight_cons (t : Token) (ts : List Token) : weight (t :: ts) = t.weight + weight ts := by
  unfold weight
  rw [List.map_cons, List.sum_cons]

/-- A token on its own weighs its weight. -/
theorem weight_singleton (t : Token) : weight [t] = t.weight := add_zero _

/-- Two parts weigh what they weigh together. -/
theorem weight_append (ts us : List Token) : weight (ts ++ us) = weight ts + weight us := by
  unfold weight
  rw [List.map_append, List.sum_append]

/-- The order does not matter for the weight. -/
theorem weight_eq_of_perm {ts us : List Token} (h : ts.Perm us) : weight ts = weight us :=
  (h.map Token.weight).sum_eq

/-- Parentheses weigh nothing. -/
theorem weight_withoutParentheses (ts : List Token) : weight (withoutParentheses ts) = weight ts := by
  induction ts with
  | nil => rfl
  | cons t ts ih =>
    have hone : weight (withoutParentheses [t]) = t.weight := by
      cases t with
      | operator o => cases o <;> rfl
      | symbol c => rfl
      | opening => rfl
      | closing => rfl
    rw [withoutParentheses_cons, weight_append, ih, hone, weight_cons]

/-! ## The stack of trees -/

/-- A token adds its weight to the height of the stack. -/
theorem Tree.length_of_push {trees trees' : List Tree} {t : Token}
    (h : Tree.push trees t = some trees') : (trees'.length : ℤ) = trees.length + t.weight := by
  cases t with
  | symbol c =>
    obtain rfl := Option.some.inj h
    show ((trees.length + 1 : ℕ) : ℤ) = trees.length + 1
    omega
  | opening => contradiction
  | closing => contradiction
  | operator o =>
    cases o with
    | union | concat =>
      obtain _ | ⟨right, _ | ⟨left, rest⟩⟩ := trees
      · contradiction
      · contradiction
      · obtain rfl := Option.some.inj h
        show ((rest.length + 1 : ℕ) : ℤ) = (rest.length + 1 + 1 : ℕ) + -1
        omega
    | star | plus =>
      obtain _ | ⟨inner, rest⟩ := trees
      · contradiction
      · obtain rfl := Option.some.inj h
        exact (add_zero _).symm

/-- Tokens add their weight to the height of the stack. -/
theorem Tree.length_of_foldlM_push {trees trees' : List Tree} {ts : List Token}
    (h : ts.foldlM Tree.push trees = some trees') :
    (trees'.length : ℤ) = trees.length + weight ts := by
  induction ts generalizing trees with
  | nil =>
    obtain rfl := Option.some.inj h
    exact (add_zero _).symm
  | cons t ts ih =>
    rw [List.foldlM_cons] at h
    obtain ⟨next, hpush, hrest⟩ := Option.bind_eq_some_iff.1 h
    have hnext := Tree.length_of_push hpush
    have := ih hrest
    rw [weight_cons]
    omega

/-! ## Explicit concatenations -/

/-- From a token to the next one, with the concatenation between them, the balance stays as it is,
or gets worse by one for a token out of place. -/
theorem weight_add_lack (s t : Token) :
    weight (if s.endsOperand && t.beginsOperand then [.operator .concat] else []) + t.weight +
      t.lack = s.lack - (if s.endsOperand || t.beginsOperand then 0 else 1) := by
  unfold Token.lack
  generalize s.endsOperand = operand
  -- There is a concatenation to be counted exactly where one operand meets the next.
  cases t with
  | operator o => cases o <;> cases operand <;> rfl
  | symbol c => cases operand <;> rfl
  | opening => cases operand <;> rfl
  | closing => cases operand <;> rfl

/-- What follows a token weighs at most what the token lacks. -/
theorem weight_insertConcatenation_le (s : Token) (ts : List Token) :
    weight (insertConcatenation (s :: ts)) ≤ s.weight + s.lack := by
  induction ts generalizing s with
  | nil =>
    have hone : weight (insertConcatenation [s]) = s.weight := weight_singleton s
    have hlack : 0 ≤ s.lack := by
      unfold Token.lack
      split <;> omega
    omega
  | cons t ts ih =>
    have hbalance := weight_add_lack s t
    have hrest := ih t
    have hcost : (0 : ℤ) ≤ if s.endsOperand || t.beginsOperand then 0 else 1 := by
      split <;> omega
    rw [insertConcatenation_cons_cons, weight_cons, weight_append]
    omega

/-- If what follows a token weighs all that the token lacks, and closes all parentheses, then
reading it comes to a complete operand outside of all parentheses. -/
theorem foldlM_next_of_weight {s : Token} {ts : List Token} {depth : ℕ}
    (hweight : weight (insertConcatenation (s :: ts)) = s.weight + s.lack)
    (hnest : ts.foldlM Token.nest depth = some 0) :
    ts.foldlM Place.next ⟨depth, s.endsOperand⟩ = some .final := by
  induction ts generalizing s depth with
  | nil =>
    -- Nothing is missing at the end, so the last token has ended an operand.
    obtain rfl := Option.some.inj hnest
    have hone : weight (insertConcatenation [s]) = s.weight := weight_singleton s
    have hlack : s.lack = 0 := by omega
    have hends : s.endsOperand = true := by
      unfold Token.lack at hlack
      split at hlack
      · assumption
      · omega
    rw [hends]
    rfl
  | cons t ts ih =>
    rw [List.foldlM_cons] at hnest
    obtain ⟨depth', hdepth, hnest⟩ := Option.bind_eq_some_iff.1 hnest
    -- Only a token in its place keeps the balance.
    have hbalance := weight_add_lack s t
    have hle := weight_insertConcatenation_le t ts
    rw [insertConcatenation_cons_cons, weight_cons, weight_append] at hweight
    have hfits : (s.endsOperand || t.beginsOperand) = true := by
      by_contra hfits
      rw [if_neg hfits] at hbalance
      omega
    have hrest : weight (insertConcatenation (t :: ts)) = t.weight + t.lack := by
      rw [if_pos hfits] at hbalance
      omega
    have hnext : Place.next ⟨depth, s.endsOperand⟩ t = some ⟨depth', t.endsOperand⟩ := by
      unfold Place.next
      rw [if_pos hfits, hdepth]
      rfl
    rw [List.foldlM_cons, hnext]
    exact ih hrest hnest

/-- An opening parenthesis before the first token changes nothing but the depth. -/
theorem weight_insertConcatenation_opening (ts : List Token) :
    weight (insertConcatenation (.opening :: ts)) = weight (insertConcatenation ts) := by
  cases ts with
  | nil => rfl
  | cons t ts =>
    rw [insertConcatenation_cons_cons, weight_cons]
    exact zero_add _

/-- Explicit concatenations do not change depths. -/
theorem foldlM_nest_insertConcatenation (ts : List Token) (depth : ℕ) :
    (insertConcatenation ts).foldlM Token.nest depth = ts.foldlM Token.nest depth := by
  induction ts generalizing depth with
  | nil => rfl
  | cons s ts ih =>
    cases ts with
    | nil => rfl
    | cons t ts =>
      have hgap (depth : ℕ) : (if s.endsOperand && t.beginsOperand then
          [Token.operator .concat] else []).foldlM Token.nest depth = some depth := by
        split <;> rfl
      rw [insertConcatenation_cons_cons, List.foldlM_cons, List.foldlM_cons (l := t :: ts)]
      congr 1
      funext depth'
      rw [List.foldlM_append, hgap]
      exact ih depth'

/-! ## Texts -/

section Texts

variable {ts ps : List Token} {trees : List Tree}

/-- The tokens of a text in postfix order weigh as much as with their concatenations explicit. -/
theorem weight_of_toPostfix (h : toPostfix (insertConcatenation ts) = .ok ps) :
    weight ps = weight (insertConcatenation ts) := by
  rw [weight_eq_of_perm (perm_of_toPostfix h), weight_withoutParentheses]

/-- Tokens leave one tree at most. -/
theorem length_le_one_of_foldlM_push (h : toPostfix (insertConcatenation ts) = .ok ps)
    (htrees : ps.foldlM Tree.push [] = some trees) : trees.length ≤ 1 := by
  -- The tokens weigh at most what is missing at the start, one operand.
  have hlength := Tree.length_of_foldlM_push htrees
  have hle := weight_insertConcatenation_le .opening ts
  rw [weight_insertConcatenation_opening, ← weight_of_toPostfix h] at hle
  have hzero : Token.opening.weight + Token.opening.lack = 1 := rfl
  rw [List.length_nil] at hlength
  omega

/-- Tokens that leave a tree are an expression. -/
theorem exists_phrase_of_foldlM_push {d : Tree} (h : toPostfix (insertConcatenation ts) = .ok ps)
    (htrees : ps.foldlM Tree.push [] = some [d]) : ∃ e, Phrase .expression ts e := by
  have hlength := Tree.length_of_foldlM_push htrees
  have hweight : weight (insertConcatenation (.opening :: ts)) = 1 := by
    rw [weight_insertConcatenation_opening, ← weight_of_toPostfix h]
    simpa using hlength.symm
  have hnest : ts.foldlM Token.nest 0 = some 0 := by
    rw [← foldlM_nest_insertConcatenation]
    exact foldlM_nest_of_toPostfix h
  exact exists_phrase_iff.2 (foldlM_next_of_weight hweight hnest)

end Texts

end FiniteAutomata.Regex
