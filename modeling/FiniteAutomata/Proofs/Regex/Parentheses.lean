import FiniteAutomata.Proofs.Regex.Conservation
import FiniteAutomata.Proofs.Regex.Postfix
import Mathlib.Order.Bounds.Defs

/-!
# Parentheses out of balance

Of all that may be wrong with tokens, the conversion to postfix order sees the parentheses alone,
and it says which one is at fault (`toPostfix_judges`). If at some point more have been closed than
opened, this is the first closing parenthesis where it is so. If not, it is the last opening
parenthesis without a partner. If every opening parenthesis has its partner the conversion succeeds,
wherever operators and operands stand.

The parentheses are pending among operators, but an operator goes only past operators, so the
positions of the pending parentheses change with each token as if they were alone on a stack. Over
balanced tokens they come back to what they were (`exists_readAll_of_nest`). All that is needed of
the tokens is therefore where they are out of balance: in front of a closing parenthesis at fault
everything is balanced, and behind an opening one at fault too (`splits`).
-/

namespace FiniteAutomata.Regex

/-- So many first tokens have more closing parentheses than opening ones. -/
def Overruns (ts : List Token) (k : ℕ) : Prop :=
  (ts.take k).count .opening < (ts.take k).count .closing

instance (ts : List Token) (k : ℕ) : Decidable (Overruns ts k) := Nat.decLt _ _

/-- The parentheses are in balance. -/
structure Balanced (ts : List Token) : Prop where
  /-- Nowhere more have been closed than opened. -/
  not_overruns : ∀ k, ¬ Overruns ts k
  /-- All that have been opened are closed at the end. -/
  count_eq : ts.count .opening = ts.count .closing

/-- At two positions there are an opening parenthesis and its partner, the closing one before which
all is balanced from there on. -/
def Partners (ts : List Token) (i j : ℕ) : Prop :=
  ∃ us vs ws, ts = us ++ .opening :: (vs ++ .closing :: ws) ∧ Balanced vs ∧ us.length = i ∧
    us.length + vs.length + 1 = j

/-- At a position there is an opening parenthesis without a partner. -/
def Unclosed (ts : List Token) (i : ℕ) : Prop := ts[i]? = some .opening ∧ ∀ j, ¬ Partners ts i j

/-- What is said of tokens according to their parentheses. -/
structure JudgesParentheses (ts : List Token) (result : Except Malformed (List Token)) : Prop where
  /-- If a beginning has more closing than opening parentheses, the first closing one is refused
  with which this is so. -/
  closing : (∃ k, Overruns ts k) →
    ∃ i, IsLeast {i | ts[i]? = some .closing ∧ Overruns ts (i + 1)} i ∧
      Refuses result i "unmatched closing parenthesis"
  /-- Otherwise, if an opening parenthesis is never closed, the last such one is refused. -/
  opening : (∀ k, ¬ Overruns ts k) → (∃ i, Unclosed ts i) →
    ∃ i, IsGreatest {i | Unclosed ts i} i ∧ Refuses result i "unmatched opening parenthesis"
  /-- Otherwise nothing is refused. -/
  ok : (∀ k, ¬ Overruns ts k) → (∀ i, ¬ Unclosed ts i) → ∃ ps, result = .ok ps

variable {ts us vs : List Token} {t : Token} {depth depth' : ℕ}

/-! ## Depth and balance -/

/-- The depth after tokens is what they open on balance, if no beginning closes more than is
open. -/
theorem foldlM_nest_eq_some_iff : ts.foldlM Token.nest depth = some depth' ↔
    (∀ k, (ts.take k).count .closing ≤ depth + (ts.take k).count .opening) ∧
      depth' + ts.count .closing = depth + ts.count .opening := by
  induction ts generalizing depth with
  | nil => simp [eq_comm]
  | cons t ts ih =>
    rw [List.foldlM_cons]
    -- The first token is counted in every beginning but the empty one.
    have hbeginnings : (∀ k, ((t :: ts).take k).count .closing ≤
        depth + ((t :: ts).take k).count .opening) ↔ ∀ k, (t :: ts.take k).count .closing ≤
          depth + (t :: ts.take k).count .opening := by
      constructor
      · intro h k
        exact h (k + 1)
      · rintro h (_ | k)
        · exact Nat.zero_le _
        · exact h k
    rw [hbeginnings]
    cases t with
    | symbol c | operator o =>
      show ts.foldlM Token.nest depth = _ ↔ _
      rw [ih]
      simp
    | opening =>
      show ts.foldlM Token.nest (depth + 1) = _ ↔ _
      rw [ih]
      simp [Nat.add_assoc, Nat.add_comm 1]
    | closing =>
      cases depth with
      | zero =>
        refine iff_of_false (fun h => nomatch h) fun h => ?_
        have := h.1 0
        simp at this
      | succ depth =>
        show ts.foldlM Token.nest depth = _ ↔ _
        rw [ih]
        simp [Nat.add_right_comm depth 1, ← Nat.add_assoc]

/-- Balanced tokens start and end outside of all parentheses. -/
theorem balanced_iff : Balanced ts ↔ ts.foldlM Token.nest 0 = some 0 := by
  rw [foldlM_nest_eq_some_iff]
  simp only [Nat.zero_add]
  exact ⟨fun h => ⟨fun k => Nat.le_of_not_lt (h.not_overruns k), h.count_eq.symm⟩,
    fun h => ⟨fun k => Nat.not_lt_of_le (h.1 k), h.2.symm⟩⟩

/-- Tokens have a depth at their end if no beginning has more closing than opening parentheses. -/
theorem not_overruns_of_foldlM (h : ts.foldlM Token.nest 0 = some depth) (k : ℕ) :
    ¬ Overruns ts k := by
  have := (foldlM_nest_eq_some_iff.1 h).1 k
  rw [Overruns]
  omega

/-- Further out there is as much more depth before the tokens as after them. -/
theorem foldlM_nest_add (h : ts.foldlM Token.nest depth = some depth') (extra : ℕ) :
    ts.foldlM Token.nest (depth + extra) = some (depth' + extra) := by
  obtain ⟨hle, heq⟩ := foldlM_nest_eq_some_iff.1 h
  refine foldlM_nest_eq_some_iff.2 ⟨fun k => ?_, by omega⟩
  have := hle k
  omega

/-- Balanced tokens keep the depth. -/
theorem Balanced.foldlM_nest (h : Balanced ts) (depth : ℕ) :
    ts.foldlM Token.nest depth = some depth := by
  have := foldlM_nest_add (balanced_iff.1 h) depth
  rwa [Nat.zero_add] at this

/-- Behind balanced tokens the depth is what it would be without them. -/
theorem Balanced.foldlM_nest_append (h : Balanced ts) (us : List Token) :
    (ts ++ us).foldlM Token.nest depth = us.foldlM Token.nest depth := by
  rw [List.foldlM_append, h.foldlM_nest]
  rfl

/-- Balanced tokens in parentheses are balanced. -/
theorem Balanced.group (h : Balanced ts) : Balanced (.opening :: (ts ++ [.closing])) := by
  rw [balanced_iff]
  show (ts ++ [Token.closing]).foldlM Token.nest 1 = _
  rw [h.foldlM_nest_append]
  rfl

/-- Balanced tokens one after the other are balanced. -/
theorem Balanced.append (hts : Balanced ts) (hus : Balanced us) : Balanced (ts ++ us) := by
  rw [balanced_iff, hts.foldlM_nest_append]
  exact balanced_iff.1 hus

/-! ## Where balance fails -/

/-- Tokens are balanced, or a closing parenthesis comes behind a balanced beginning, or an opening
one in front of a balanced end. -/
inductive Splits : List Token → Prop where
  /-- The tokens are balanced. -/
  | balanced {ts : List Token} (h : Balanced ts) : Splits ts
  /-- A closing parenthesis comes when none is open. -/
  | closing (us vs : List Token) (h : Balanced us) : Splits (us ++ .closing :: vs)
  /-- An opening parenthesis is still open at the end, and none that follows it. -/
  | opening (us vs : List Token) {depth : ℕ} (hus : us.foldlM Token.nest 0 = some depth)
    (h : Balanced vs) : Splits (us ++ .opening :: vs)

/-- A balanced beginning changes nothing. -/
theorem Splits.append (h : Splits us) (hts : Balanced ts) : Splits (ts ++ us) := by
  cases h with
  | balanced h => exact .balanced (hts.append h)
  | closing us vs h =>
    rw [← List.append_assoc]
    exact .closing _ vs (hts.append h)
  | opening us vs hus h =>
    rw [← List.append_assoc]
    exact .opening _ vs ((hts.foldlM_nest_append _).trans hus) h

/-- All tokens are of one of these kinds. -/
theorem splits (ts : List Token) : Splits ts := by
  -- The tokens behind a group are fewer, but they are not the tail.
  induction hn : ts.length using Nat.strong_induction_on generalizing ts with
  | h n ih =>
    subst hn
    match ts with
    | [] => exact .balanced (balanced_iff.2 rfl)
    | .symbol c :: ts =>
      have hone : Balanced [.symbol c] := balanced_iff.2 rfl
      exact (ih _ (Nat.lt_succ_self _) ts rfl).append hone
    | .operator o :: ts =>
      have hone : Balanced [.operator o] := balanced_iff.2 rfl
      exact (ih _ (Nat.lt_succ_self _) ts rfl).append hone
    | .closing :: ts => exact .closing [] ts (balanced_iff.2 rfl)
    | .opening :: ts =>
      cases ih _ (Nat.lt_succ_self _) ts rfl with
      | balanced h => exact .opening [] ts rfl h
      | closing us vs h =>
        have hvs : Splits vs := by
          refine ih _ ?_ vs rfl
          simp only [List.length_cons, List.length_append]
          omega
        have hsplits := hvs.append h.group
        rwa [List.cons_append, List.append_assoc] at hsplits
      | opening us vs hus h => exact .opening (.opening :: us) vs (foldlM_nest_add hus 1) h

/-- Behind an opening parenthesis a balanced end keeps the depth. -/
theorem foldlM_nest_append_opening (hus : us.foldlM Token.nest 0 = some depth) (h : Balanced vs) :
    (us ++ .opening :: vs).foldlM Token.nest 0 = some (depth + 1) := by
  rw [List.foldlM_append, hus]
  exact h.foldlM_nest (depth + 1)

/-- A closing parenthesis behind a balanced beginning leaves no depth. -/
theorem foldlM_nest_append_closing (h : Balanced us) :
    (us ++ .closing :: vs).foldlM Token.nest 0 = none := by
  rw [h.foldlM_nest_append]
  rfl

/-- An opening parenthesis in balanced tokens has a balanced part and a closing one behind it. -/
theorem Balanced.exists_append_closing (h : Balanced (us ++ .opening :: vs)) :
    ∃ xs ys, vs = xs ++ .closing :: ys ∧ Balanced xs := by
  rw [balanced_iff, List.foldlM_append] at h
  obtain ⟨depth, -, hvs⟩ := Option.bind_eq_some_iff.1 h
  replace hvs : vs.foldlM Token.nest (0 + (depth + 1)) = some 0 := by
    rw [Nat.zero_add]
    exact hvs
  -- What does not close more than it opens does not come to depth zero again.
  have hne {depth' : ℕ} (hdepth : vs.foldlM Token.nest 0 = some depth') : False := by
    rw [foldlM_nest_add hdepth] at hvs
    have := Option.some.inj hvs
    omega
  cases splits vs with
  | balanced hbalanced => exact (hne (balanced_iff.1 hbalanced)).elim
  | closing xs ys hxs => exact ⟨xs, ys, rfl, hxs⟩
  | opening xs ys hxs hys => exact (hne (foldlM_nest_append_opening hxs hys)).elim

/-! ## Positions -/

/-- In balanced tokens no opening parenthesis is unclosed. -/
theorem Balanced.not_unclosed (h : Balanced ts) (i : ℕ) : ¬ Unclosed ts i := by
  rintro ⟨hi, hnone⟩
  obtain ⟨us, vs, rfl, rfl⟩ := exists_append_of_getElem? hi
  obtain ⟨xs, ys, rfl, hxs⟩ := h.exists_append_closing
  exact hnone _ ⟨us, xs, ys, rfl, hxs, rfl, rfl⟩

/-- A closing parenthesis behind a balanced beginning is the first one where more have been closed
than opened. -/
theorem isLeast_closing (us vs : List Token) (h : Balanced us) :
    IsLeast {i | (us ++ .closing :: vs)[i]? = some .closing ∧
      Overruns (us ++ .closing :: vs) (i + 1)} us.length := by
  refine ⟨⟨by simp, ?_⟩, ?_⟩
  · rw [Overruns, List.take_length_add_append]
    simp [h.count_eq]
  · rintro j ⟨-, hj⟩
    by_contra hlt
    have hbefore : (us ++ .closing :: vs).take (j + 1) = us.take (j + 1) :=
      List.take_append_of_le_length (by omega)
    rw [Overruns, hbefore] at hj
    exact h.not_overruns (j + 1) hj

/-- An opening parenthesis in front of a balanced end is the last one that is never closed. -/
theorem isGreatest_unclosed (us vs : List Token) (h : Balanced vs) :
    IsGreatest {i | Unclosed (us ++ .opening :: vs) i} us.length := by
  refine ⟨⟨by simp, ?_⟩, ?_⟩
  · -- Its partner would be one too many in the end that follows.
    rintro j ⟨us', xs, ys, heq, hxs, hlength, -⟩
    obtain ⟨-, hvs⟩ := List.append_inj heq hlength.symm
    obtain rfl := (List.cons.inj hvs).2
    rw [balanced_iff, foldlM_nest_append_closing hxs] at h
    contradiction
  · -- An opening parenthesis behind it has its partner in the end.
    rintro j ⟨hj, hnone⟩
    by_contra hlt
    rw [List.getElem?_append_right (by omega), List.getElem?_cons, if_neg (by omega)] at hj
    obtain ⟨xs, ys, rfl, hxs⟩ := exists_append_of_getElem? hj
    obtain ⟨zs, ws, rfl, hzs⟩ := h.exists_append_closing
    refine hnone _ ⟨us ++ .opening :: xs, zs, ws, by simp, hzs, ?_, rfl⟩
    rw [List.length_append, List.length_cons]
    omega

/-! ## The conversion -/

namespace Pending

/-- The positions of the parentheses that are pending, the innermost first. -/
def openings : List Pending → List ℕ
  | [] => []
  | opening position :: rest => position :: openings rest
  | operator _ :: rest => openings rest

/-- Operators that are pending above others do not count. -/
theorem openings_append (os : List Operator) (pending : List Pending) :
    openings (os.map operator ++ pending) = openings pending := by
  induction os with
  | nil => rfl
  | cons o os ih => rw [List.map_cons, List.cons_append, openings, ih]

end Pending

namespace Conversion

variable {s : Conversion}

/-- A closing parenthesis closes the innermost one that is pending. -/
theorem read_closing_of_openings (position : ℕ) {i : ℕ} {rest : List ℕ}
    (h : Pending.openings s.pending = i :: rest) :
    ∃ s', s.read position .closing = .ok s' ∧ Pending.openings s'.pending = rest := by
  rw [read]
  split
  · rename_i os j pending hsince
    rw [Pending.eq_of_sinceOpening_eq_some hsince, Pending.openings_append] at h
    exact ⟨_, rfl, (List.cons.inj h).2⟩
  · rename_i os hsince
    rw [Pending.eq_of_sinceOpening_eq_none hsince, ← List.append_nil (os.map _),
      Pending.openings_append] at h
    contradiction

/-- A closing parenthesis is refused if none is pending. -/
theorem read_closing_of_openings_eq_nil (position : ℕ) (h : Pending.openings s.pending = []) :
    s.read position .closing = .error ⟨position, .unmatchedClosing⟩ := by
  rw [read]
  split
  · rename_i os j pending hsince
    rw [Pending.eq_of_sinceOpening_eq_some hsince, Pending.openings_append] at h
    contradiction
  · rfl

/-- An operator is taken, and the parentheses stay pending. -/
theorem read_operator (s : Conversion) (position : ℕ) (o : Operator) :
    ∃ s', s.read position (.operator o) = .ok s' ∧
      Pending.openings s'.pending = Pending.openings s.pending := by
  refine ⟨_, rfl, ?_⟩
  have hcompleted := Pending.completedBy_fst_append_snd o s.pending
  generalize Pending.completedBy o s.pending = completed at hcompleted ⊢
  rw [← hcompleted, Pending.openings_append]
  rfl

/-- Tokens that close no more than some parentheses that are pending are taken, and those further
out stay pending. -/
theorem exists_readAll_of_nest (s : Conversion) (position : ℕ) (old : List ℕ) {outer : List ℕ}
    (hdepth : ts.foldlM Token.nest old.length = some depth)
    (hold : Pending.openings s.pending = old ++ outer) :
    ∃ s' new, s.readAll position ts = .ok s' ∧
      Pending.openings s'.pending = new ++ outer ∧ new.length = depth := by
  induction ts generalizing s position old with
  | nil => exact ⟨s, old, rfl, hold, Option.some.inj hdepth⟩
  | cons t ts ih =>
    rw [List.foldlM_cons] at hdepth
    cases t with
    | symbol c => exact ih ⟨.symbol c :: s.written, s.pending⟩ (position + 1) old hdepth hold
    | operator o =>
      obtain ⟨next, hread, hnext⟩ := s.read_operator position o
      rw [readAll, hread]
      exact ih next (position + 1) old hdepth (hnext.trans hold)
    | opening =>
      refine ih ⟨s.written, .opening position :: s.pending⟩ (position + 1) (position :: old) hdepth
        ?_
      rw [Pending.openings, hold]
      rfl
    | closing =>
      cases old with
      | nil => contradiction
      | cons i old =>
        obtain ⟨next, hread, hnext⟩ := read_closing_of_openings position hold
        rw [readAll, hread]
        exact ih next (position + 1) old hdepth hnext

/-- Balanced tokens are taken and leave the same parentheses pending. -/
theorem exists_readAll_of_balanced (s : Conversion) (position : ℕ) (h : Balanced ts) :
    ∃ s', s.readAll position ts = .ok s' ∧
      Pending.openings s'.pending = Pending.openings s.pending := by
  obtain ⟨s', new, hread, hnew, hlength⟩ :=
    exists_readAll_of_nest s position [] (balanced_iff.1 h) rfl
  obtain rfl := List.length_eq_zero_iff.1 hlength
  exact ⟨s', hread, hnew⟩

/-- At the end the innermost parenthesis that is pending is refused. -/
theorem finish_of_openings {i : ℕ} {rest : List ℕ} (h : Pending.openings s.pending = i :: rest) :
    s.finish = .error ⟨i, .unmatchedOpening⟩ := by
  rw [finish]
  split
  · rename_i os hsince
    rw [Pending.eq_of_sinceOpening_eq_none hsince, ← List.append_nil (os.map _),
      Pending.openings_append] at h
    contradiction
  · rename_i os j pending hsince
    rw [Pending.eq_of_sinceOpening_eq_some hsince, Pending.openings_append] at h
    rw [(List.cons.inj h).1]

/-- If no parenthesis is pending at the end the conversion succeeds. -/
theorem exists_finish_of_openings_eq_nil (h : Pending.openings s.pending = []) :
    ∃ ps, s.finish = .ok ps := by
  rw [finish]
  split
  · exact ⟨_, rfl⟩
  · rename_i os j pending hsince
    rw [Pending.eq_of_sinceOpening_eq_some hsince, Pending.openings_append] at h
    contradiction

end Conversion

/-- Balanced tokens are converted. -/
theorem Balanced.exists_toPostfix (h : Balanced ts) : ∃ ps, toPostfix ts = .ok ps := by
  obtain ⟨s, hread, hs⟩ := Conversion.exists_readAll_of_balanced ⟨[], []⟩ 0 h
  rw [toPostfix, hread]
  exact Conversion.exists_finish_of_openings_eq_nil hs

/-- A closing parenthesis behind a balanced beginning is refused. -/
theorem toPostfix_append_closing (h : Balanced us) (vs : List Token) :
    toPostfix (us ++ .closing :: vs) = .error ⟨us.length, .unmatchedClosing⟩ := by
  obtain ⟨s, hread, hs⟩ := Conversion.exists_readAll_of_balanced ⟨[], []⟩ 0 h
  rw [toPostfix, Conversion.readAll_append hread, Conversion.readAll,
    Conversion.read_closing_of_openings_eq_nil _ hs, Nat.zero_add]

/-- An opening parenthesis in front of a balanced end is refused, if what is before it can be
taken. -/
theorem toPostfix_append_opening (hus : us.foldlM Token.nest 0 = some depth) (h : Balanced vs) :
    toPostfix (us ++ .opening :: vs) = .error ⟨us.length, .unmatchedOpening⟩ := by
  obtain ⟨s, new, hread, hs, -⟩ := Conversion.exists_readAll_of_nest ⟨[], []⟩ 0 [] hus rfl
  obtain ⟨s', hread', hs'⟩ := Conversion.exists_readAll_of_balanced
    ⟨s.written, .opening us.length :: s.pending⟩ (us.length + 1) h
  have hopening : s.readAll us.length (.opening :: vs) = .ok s' := hread'
  rw [toPostfix, Conversion.readAll_append hread, Nat.zero_add, hopening]
  exact Conversion.finish_of_openings hs'

/-! ## Main result -/

/-- The conversion judges tokens by their parentheses alone. -/
theorem toPostfix_judges (ts : List Token) : JudgesParentheses ts (toPostfix ts) := by
  cases splits ts with
  | balanced h =>
    exact ⟨fun ⟨k, hk⟩ => absurd hk (h.not_overruns k),
      fun _ ⟨i, hi⟩ => absurd hi (h.not_unclosed i), fun _ _ => h.exists_toPostfix⟩
  | closing us vs h =>
    have hleast := isLeast_closing us vs h
    refine ⟨fun _ => ⟨_, hleast, _, toPostfix_append_closing h vs, rfl⟩, ?_, ?_⟩
    all_goals exact fun hnone => absurd hleast.1.2 (hnone _)
  | opening us vs hus h =>
    have hnone := not_overruns_of_foldlM (foldlM_nest_append_opening hus h)
    have hgreatest := isGreatest_unclosed us vs h
    exact ⟨fun ⟨k, hk⟩ => absurd hk (hnone k),
      fun _ _ => ⟨_, hgreatest, _, toPostfix_append_opening hus h, rfl⟩,
      fun _ hall => absurd hgreatest.1 (hall _)⟩

/-- Tokens that leave two parentheses open, with an operator right behind the second one. -/
def openTokens : List Token :=
  [.opening, .opening, .symbol 'a', .closing, .opening, .operator .union, .symbol 'b']

/-- The later one of the two is refused. With four closing parentheses behind them, it is the third
of these. -/
theorem toPostfix_judges_openTokens :
    (IsGreatest {i | Unclosed openTokens i} 4 ∧
      Refuses (toPostfix openTokens) 4 "unmatched opening parenthesis") ∧
    Refuses (toPostfix (openTokens ++ List.replicate 4 .closing)) 9
      "unmatched closing parenthesis" := by
  have hgreatest : IsGreatest {i | Unclosed openTokens i} 4 :=
    isGreatest_unclosed [.opening, .opening, .symbol 'a', .closing] [.operator .union, .symbol 'b']
      (balanced_iff.2 rfl)
  have hdepth : openTokens.foldlM Token.nest 0 = some 2 := rfl
  obtain ⟨i, hi, hopening⟩ :=
    (toPostfix_judges openTokens).opening (not_overruns_of_foldlM hdepth) ⟨4, hgreatest.1⟩
  obtain rfl := hi.unique hgreatest
  have hleast := isLeast_closing (openTokens ++ [.closing, .closing]) [.closing]
    (balanced_iff.2 rfl)
  obtain ⟨j, hj, hclosing⟩ := (toPostfix_judges (openTokens ++ List.replicate 4 .closing)).closing
    ⟨10, by decide⟩
  obtain rfl := hj.unique hleast
  exact ⟨⟨hgreatest, hopening⟩, hclosing⟩

end FiniteAutomata.Regex
