import FiniteAutomata.Log.Steps
import FiniteAutomata.Proofs.Regex.Balance
import FiniteAutomata.Proofs.Regex.Shape
import Mathlib.Order.Bounds.Basic

/-!
# Where a construction fails

Whether a construction succeeds is known from its tokens by counting. Before a token there are as
many fragments on the stack as the tokens in front of it weigh, so it is known which token is the
first that cannot be taken: a parenthesis, or an operator with more operands than there are
fragments. If there is none, what all tokens weigh has to be one (`thompsonLogged_judges`).

The count is right because a token that is taken leaves one fragment in place of its operands
(`Token.operands_add_weight`). It is carried along the tokens together with the names that they use
(`Builder.Took`). A token that finds its operands keeps both (`Builder.exists_consume`). Any other
token ends the construction before it has used a name, even if it is an operator that finds one of
its two operands (`Builder.consume_eq_error`).
-/

namespace FiniteAutomata.Regex

open Log

/-- The number of fragments that a token takes from the stack. -/
def Token.operands : Token → ℕ
  | .operator .union => 2
  | .operator .concat => 2
  | .operator .star => 1
  | .operator .plus => 1
  | _ => 0

/-- At a position there is a token that cannot be taken: a parenthesis, or an operator with more
operands than the tokens before it leave. -/
def Misplaced (ts : List Token) (i : ℕ) : Prop :=
  ∃ t ∈ ts[i]?, t.isParenthesis = true ∨ weight (ts.take i) < t.operands

instance (ts : List Token) (i : ℕ) : Decidable (Misplaced ts i) :=
  inferInstanceAs <| Decidable <|
    ∃ t ∈ ts[i]?, t.isParenthesis = true ∨ weight (ts.take i) < t.operands

/-- What is said of tokens in postfix order according to what they weigh, with a namer at hand. -/
structure JudgesOperands (ts : List Token) (n : Namer) (result : Logged Construction) : Prop where
  /-- If some token cannot be taken, the first such one is refused. -/
  misplaced : (∃ i, Misplaced ts i) → ∃ i t, IsLeast {i | Misplaced ts i} i ∧ ts[i]? = some t ∧
    Refuses result.value.outcome i
      (if t.isParenthesis then "parenthesis in postfix expression"
        else "operator without enough operands")
  /-- No tokens at all are refused. -/
  empty : ts = [] → Refuses result.value.outcome ts.length "operator without enough operands"
  /-- If all tokens can be taken but weigh more than one, their end is refused. -/
  leftover : (∀ i, ¬ Misplaced ts i) → 1 < weight ts →
    Refuses result.value.outcome ts.length "operands left without operator"
  /-- Otherwise nothing is refused. -/
  ok : (∀ i, ¬ Misplaced ts i) → ts ≠ [] → weight ts ≤ 1 → ∃ A, result.value.outcome = .ok A
  /-- There is a line for each token up to the first that cannot be taken. It tells the weight of
  the tokens before. -/
  log : ∀ i line, result.log[i]? = some line ↔ (∀ j < i, ¬ Misplaced ts j) ∧
    ∃ t, ts[i]? = some t ∧ ∃ height : ℕ, (height : ℤ) = weight (ts.take i) ∧
      line = ⟨.trace, "thompson: token " ++ String.singleton t.toChar ++ " with " ++
        toString height ++ " fragments"⟩
  /-- The tokens before the first that cannot be taken have used their names, and no others are
  used. -/
  namer : ∃ m, IsLeast {m | Misplaced ts m ∨ m = ts.length} m ∧
    result.value.namer = n.advance (stateCount (ts.take m))

variable {ts us vs : List Token} {t : Token} {n : Namer} {b : Builder} {i k : ℕ}

/-! ## Tokens -/

/-- A token that is no parenthesis leaves one fragment in place of its operands. -/
theorem Token.operands_add_weight (h : t.isParenthesis = false) : t.operands + t.weight = 1 := by
  cases t with
  | symbol c => rfl
  | opening => contradiction
  | closing => contradiction
  | operator o => cases o <;> rfl

/-- The token behind others is misplaced if it cannot be taken after them. -/
theorem misplaced_append_cons : Misplaced (us ++ t :: vs) us.length ↔
    t.isParenthesis = true ∨ weight us < t.operands := by
  simp [Misplaced]

/-- Where tokens are misplaced there is a first one. -/
theorem exists_isLeast_misplaced (h : ∃ i, Misplaced ts i) : ∃ i, IsLeast {i | Misplaced ts i} i :=
  ⟨Nat.find h, Nat.find_spec h, fun _ hi => Nat.find_min' h hi⟩

/-- Tokens of which none is misplaced leave something, if there are any. -/
theorem one_le_weight (h : ∀ i, ¬ Misplaced ts i) (hne : ts ≠ []) : 1 ≤ weight ts := by
  obtain ⟨us, t, rfl⟩ := (List.eq_nil_or_concat' ts).resolve_left hne
  obtain ⟨hp, hoperands⟩ := not_or.1 (mt misplaced_append_cons.2 (h us.length))
  have hone := Token.operands_add_weight (Bool.eq_false_iff.2 hp)
  rw [weight_append, weight_singleton]
  omega

namespace Builder

/-! ## One token -/

/-- A token that finds its operands adds its weight to the height of the stack and uses the names of
its fragment. -/
theorem exists_consume (hp : t.isParenthesis = false) (h : t.operands ≤ b.fragments.length) :
    ∃ b', b.consume t = .ok b' ∧ b'.namer = b.namer.advance (stateCount [t]) ∧
      (b'.fragments.length : ℤ) = b.fragments.length + t.weight := by
  obtain ⟨n, fragments⟩ := b
  cases t with
  | symbol c => exact ⟨_, rfl, rfl, rfl⟩
  | opening => contradiction
  | closing => contradiction
  | operator o =>
    cases o with
    | union | concat =>
      obtain _ | ⟨right, _ | ⟨left, rest⟩⟩ := fragments
      · contradiction
      · contradiction
      · refine ⟨_, rfl, rfl, ?_⟩
        show ((rest.length + 1 : ℕ) : ℤ) = (rest.length + 1 + 1 : ℕ) + -1
        omega
    | star | plus =>
      obtain _ | ⟨inner, rest⟩ := fragments
      · contradiction
      · exact ⟨_, rfl, rfl, (add_zero _).symm⟩

/-- A parenthesis is refused, and an operator that finds too few operands is. -/
theorem consume_eq_error (h : t.isParenthesis = true ∨ b.fragments.length < t.operands) :
    b.consume t = .error (if t.isParenthesis then .strayParenthesis else .missingOperand) := by
  obtain ⟨n, fragments⟩ := b
  cases t with
  | symbol c => simp [Token.isParenthesis, Token.operands] at h
  | opening => rfl
  | closing => rfl
  | operator o =>
    have hfew := h.resolve_left (by simp [Token.isParenthesis])
    cases o with
    | union | concat =>
      obtain _ | ⟨right, _ | ⟨left, rest⟩⟩ := fragments
      · rfl
      · rfl
      · replace hfew : rest.length + 1 + 1 < 2 := hfew
        omega
    | star | plus =>
      obtain _ | ⟨inner, rest⟩ := fragments
      · rfl
      · replace hfew : rest.length + 1 < 1 := hfew
        omega

/-- A token that is refused is the last one that is looked at. -/
theorem construct_cons_of_error {m : Misfit} (h : b.consume t = .error m) (position : ℕ)
    (vs : List Token) : b.construct position (t :: vs) =
      ⟨[b.fragments.length], b.namer, .error ⟨position, m⟩⟩ := by
  rw [construct, h]

/-- The fragments are counted before the first token. -/
theorem head?_heights_construct_cons (b : Builder) (position : ℕ) (t : Token) (vs : List Token) :
    (b.construct position (t :: vs)).heights.head? = some b.fragments.length := by
  rw [construct]
  cases b.consume t <;> rfl

/-! ## The end -/

/-- One fragment that is left becomes the automaton. -/
theorem exists_finish_eq_ok (h : b.fragments.length = 1) (position : ℕ) :
    ∃ A, b.finish position = .ok A := by
  obtain ⟨f, hf⟩ := List.length_eq_one_iff.1 h
  rw [finish, hf]
  exact ⟨_, rfl⟩

/-- Several fragments that are left are refused. -/
theorem finish_of_one_lt (h : 1 < b.fragments.length) (position : ℕ) :
    b.finish position = .error ⟨position, .leftoverOperands⟩ := by
  obtain ⟨n, _ | ⟨f, _ | ⟨g, rest⟩⟩⟩ := b
  · simp at h
  · simp at h
  · rfl

/-! ## Tokens in sequence -/

/-- A construction with a namer has taken some tokens. -/
structure Took (n : Namer) (us : List Token) (b : Builder) : Prop where
  /-- It has taken one after the other. -/
  foldlM : us.foldlM consume ⟨n, []⟩ = .ok b
  /-- It has used the names of their fragments. -/
  namer : b.namer = n.advance (stateCount us)
  /-- There are as many fragments as they weigh. -/
  height : (b.fragments.length : ℤ) = weight us

/-- At first no token has been taken. -/
theorem Took.nil (n : Namer) : Took n [] ⟨n, []⟩ := ⟨rfl, rfl, rfl⟩

/-- A token that is not misplaced is taken. -/
theorem Took.exists_consume (h : Took n us b)
    (ht : ¬ (t.isParenthesis = true ∨ weight us < t.operands)) : ∃ b', Took n (us ++ [t]) b' := by
  obtain ⟨hp, hoperands⟩ := not_or.1 ht
  have hheight := h.height
  obtain ⟨b', hconsume, hnamer, hlength⟩ :=
    Builder.exists_consume (b := b) (Bool.eq_false_iff.2 hp) (by omega)
  refine ⟨b', ?_, ?_, ?_⟩
  · rw [List.foldlM_append, h.foldlM]
    show (b.consume t >>= pure) = _
    rw [hconsume]
    rfl
  · rw [hnamer, h.namer, stateCount_append, Namer.advance_advance]
  · rw [hlength, hheight, weight_append, weight_singleton]

/-- As many tokens are taken as there are none misplaced among. -/
theorem exists_took (n : Namer) (h : ∀ i < k, ¬ Misplaced ts i) : ∃ b, Took n (ts.take k) b := by
  induction k with
  | zero => exact ⟨_, .nil n⟩
  | succ k ih =>
    obtain ⟨b, hb⟩ := ih fun i hi => h i (by omega)
    rw [List.take_add_one]
    cases hk : ts[k]? with
    | none => simpa using ⟨b, hb⟩
    | some t => exact hb.exists_consume fun ht => h k (by omega) ⟨t, hk, ht⟩

end Builder

/-! ## Constructions -/

section Constructions

open Builder

/-- A construction looks at each token with no misplaced one before it, and finds as many fragments
as the tokens before it weigh. -/
theorem exists_height (n : Namer) (ht : ts[i]? = some t) (h : ∀ j < i, ¬ Misplaced ts j) :
    ∃ height : ℕ, (thompson ts n).heights[i]? = some height ∧
      (height : ℤ) = weight (ts.take i) := by
  obtain ⟨b, hb⟩ := exists_took n h
  obtain ⟨us, vs, rfl, rfl⟩ := exists_append_of_getElem? ht
  rw [List.take_left] at hb ⊢
  obtain ⟨heights, hlength, hconstruct⟩ := construct_append 0 (t :: vs) hb.foldlM
  refine ⟨b.fragments.length, ?_, hb.height⟩
  rw [thompson, hconstruct, ← hlength, List.getElem?_append_right le_rfl, Nat.sub_self,
    ← List.head?_eq_getElem?]
  exact head?_heights_construct_cons _ _ _ _

/-- The first token that is misplaced ends the construction. -/
theorem thompson_of_isLeast (n : Namer) (h : IsLeast {i | Misplaced ts i} i) :
    ∃ t, ts[i]? = some t ∧ (thompson ts n).heights.length = i + 1 ∧
      (thompson ts n).namer = n.advance (stateCount (ts.take i)) ∧
      (thompson ts n).outcome =
        .error ⟨i, if t.isParenthesis then .strayParenthesis else .missingOperand⟩ := by
  obtain ⟨t, ht, hmisplaced⟩ := h.1
  obtain ⟨b, hb⟩ := exists_took n fun j hj hj' => Nat.not_lt.2 (h.2 hj') hj
  obtain ⟨us, vs, rfl, rfl⟩ := exists_append_of_getElem? ht
  rw [List.take_left] at hmisplaced hb ⊢
  have hconsume := consume_eq_error (b := b) (hmisplaced.imp_right fun hlt => by
    have := hb.height
    omega)
  obtain ⟨heights, hlength, hconstruct⟩ := construct_append 0 (t :: vs) hb.foldlM
  rw [construct_cons_of_error hconsume, Nat.zero_add] at hconstruct
  rw [thompson, hconstruct]
  exact ⟨t, ht, by rw [List.length_append, hlength, List.length_singleton], hb.namer, rfl⟩

/-- If no token is misplaced then all are taken. -/
theorem thompson_of_not_misplaced (n : Namer) (h : ∀ i, ¬ Misplaced ts i) :
    ∃ b, Took n ts b ∧ (thompson ts n).namer = b.namer ∧
      (thompson ts n).outcome = b.finish ts.length := by
  obtain ⟨b, hb⟩ := exists_took (k := ts.length) n fun i _ => h i
  rw [List.take_length] at hb
  have hconstruct := construct_of_foldlM 0 hb.foldlM
  rw [Nat.zero_add] at hconstruct
  exact ⟨b, hb, hconstruct⟩

/-- If no token is misplaced and they leave one fragment, there is an automaton. -/
theorem exists_outcome_of_weight_eq_one (n : Namer) (h : ∀ i, ¬ Misplaced ts i)
    (hone : weight ts = 1) : ∃ A, (thompson ts n).outcome = .ok A := by
  obtain ⟨b, hb, -, houtcome⟩ := thompson_of_not_misplaced n h
  have hheight := hb.height
  rw [houtcome]
  exact exists_finish_eq_ok (by omega) _

/-- If no token is misplaced and they leave several fragments, their end is refused. -/
theorem outcome_of_one_lt_weight (n : Namer) (h : ∀ i, ¬ Misplaced ts i) (hmany : 1 < weight ts) :
    (thompson ts n).outcome = .error ⟨ts.length, .leftoverOperands⟩ := by
  obtain ⟨b, hb, -, houtcome⟩ := thompson_of_not_misplaced n h
  have hheight := hb.height
  rw [houtcome]
  exact finish_of_one_lt (by omega) _

/-- The tokens before the first that is misplaced, or all of them, have used their names. -/
theorem exists_isLeast_namer (ts : List Token) (n : Namer) :
    ∃ m, IsLeast {m | Misplaced ts m ∨ m = ts.length} m ∧
      (thompson ts n).namer = n.advance (stateCount (ts.take m)) := by
  by_cases h : ∃ i, Misplaced ts i
  · obtain ⟨i, hi⟩ := exists_isLeast_misplaced h
    obtain ⟨t, ht, -, hnamer, -⟩ := thompson_of_isLeast n hi
    have hlt : i < ts.length := (List.getElem?_eq_some_iff.1 ht).1
    refine ⟨i, ⟨.inl hi.1, ?_⟩, hnamer⟩
    rintro m (hm | rfl)
    · exact hi.2 hm
    · exact hlt.le
  · obtain ⟨b, hb, hnamer, -⟩ := thompson_of_not_misplaced n (not_exists.1 h)
    refine ⟨ts.length, ⟨.inr rfl, ?_⟩, ?_⟩
    · rintro m (hm | rfl)
      · exact absurd ⟨m, hm⟩ h
      · exact le_rfl
    · rw [List.take_length, hnamer, hb.namer]

/-- The fragments are counted before a token if none before it is misplaced. There are as many as
the tokens before it weigh. -/
theorem getElem?_heights_eq_some_iff {height : ℕ} (ht : ts[i]? = some t) :
    (thompson ts n).heights[i]? = some height ↔
      (∀ j < i, ¬ Misplaced ts j) ∧ (height : ℤ) = weight (ts.take i) := by
  by_cases h : ∀ j < i, ¬ Misplaced ts j
  · obtain ⟨height', hheight', hweight⟩ := exists_height n ht h
    rw [hheight', Option.some_inj]
    exact ⟨fun heq => ⟨h, by rw [← heq, hweight]⟩, fun heq => by omega⟩
  · -- The construction has ended at an earlier token.
    obtain ⟨j, hj, hmisplaced⟩ : ∃ j < i, Misplaced ts j := by simpa using h
    obtain ⟨i', hfirst⟩ := exists_isLeast_misplaced ⟨j, hmisplaced⟩
    obtain ⟨-, -, hlength, -⟩ := thompson_of_isLeast n hfirst
    have hle := hfirst.2 hmisplaced
    rw [List.getElem?_eq_none (by omega)]
    exact ⟨fun hnone => (nomatch hnone), fun hall => absurd hall.1 h⟩

/-- There is a line for each token before which the fragments are counted. -/
theorem getElem?_log_eq_some_iff {line : Entry} : (thompsonLogged ts n).log[i]? = some line ↔
    (∀ j < i, ¬ Misplaced ts j) ∧ ∃ t, ts[i]? = some t ∧
      ∃ height : ℕ, (height : ℤ) = weight (ts.take i) ∧ line = tokenEntry t height := by
  rw [thompsonLogged, List.getElem?_zipWith_eq_some]
  constructor
  · rintro ⟨t, height, ht, hheight, rfl⟩
    obtain ⟨hall, hweight⟩ := (getElem?_heights_eq_some_iff ht).1 hheight
    exact ⟨hall, t, ht, height, hweight, rfl⟩
  · rintro ⟨hall, t, ht, height, hweight, rfl⟩
    exact ⟨t, height, ht, (getElem?_heights_eq_some_iff ht).2 ⟨hall, hweight⟩, rfl⟩

end Constructions

/-! ## Main result -/

/-- A construction judges tokens by what they weigh. -/
theorem thompsonLogged_judges (ts : List Token) (n : Namer) :
    JudgesOperands ts n (thompsonLogged ts n) where
  misplaced h := by
    obtain ⟨i, hi⟩ := exists_isLeast_misplaced h
    obtain ⟨t, ht, -, -, houtcome⟩ := thompson_of_isLeast n hi
    exact ⟨i, t, hi, ht, _, houtcome, by split <;> rfl⟩
  empty := by
    rintro rfl
    exact ⟨_, rfl, rfl⟩
  leftover h hmany := ⟨_, outcome_of_one_lt_weight n h hmany, rfl⟩
  ok h hne hfew := by
    have := one_le_weight h hne
    exact exists_outcome_of_weight_eq_one n h (by omega)
  log _ _ := getElem?_log_eq_some_iff
  namer := exists_isLeast_namer ts n

/-- Tokens of which the operator at the third position finds one of its two operands. -/
def shortTokens : List Token := [.symbol 'a', .operator .star, .operator .union, .symbol 'b']

/-- This operator is refused. The construction has looked at three tokens and used four names. -/
theorem thompsonLogged_judges_shortTokens :
    Refuses (thompsonLogged shortTokens ⟨'q', 5⟩).value.outcome 2
      "operator without enough operands" ∧
    (thompsonLogged shortTokens ⟨'q', 5⟩).log[2]? =
      some ⟨.trace, "thompson: token | with 1 fragments"⟩ ∧
    (thompsonLogged shortTokens ⟨'q', 5⟩).log[3]? = none ∧
    (thompsonLogged shortTokens ⟨'q', 5⟩).value.namer = ⟨'q', 9⟩ := by
  have h := thompsonLogged_judges shortTokens ⟨'q', 5⟩
  have hbefore : ∀ i < 2, ¬ Misplaced shortTokens i := by decide
  have hleast : IsLeast {i | Misplaced shortTokens i} 2 :=
    ⟨by decide, fun i hi => Nat.not_lt.1 fun hlt => hbefore i hlt hi⟩
  refine ⟨?_, ?_, ?_, ?_⟩
  · obtain ⟨i, t, hi, ht, hrefuses⟩ := h.misplaced ⟨2, hleast.1⟩
    obtain rfl := hi.unique hleast
    obtain rfl := Option.some.inj ht
    exact hrefuses
  · exact (h.log 2 _).2 ⟨hbefore, .operator .union, rfl, 1, by decide, by decide⟩
  · refine Option.eq_none_iff_forall_ne_some.2 fun line hline => ?_
    exact ((h.log 3 line).1 hline).1 2 (by decide) hleast.1
  · obtain ⟨m, hm, hnamer⟩ := h.namer
    have hends : IsLeast {m | Misplaced shortTokens m ∨ m = shortTokens.length} 2 := by
      refine ⟨.inl hleast.1, fun m hm => hm.elim (hleast.2 ·) fun heq => ?_⟩
      rw [heq]
      decide
    obtain rfl := hm.unique hends
    exact hnamer

end FiniteAutomata.Regex
