import FiniteAutomata.Regex.Thompson
import FiniteAutomata.Proofs.Namer
import FiniteAutomata.Proofs.Regex.Conservation
import FiniteAutomata.Proofs.Regex.Fragment

/-!
# Automata of syntax trees

While the tokens of a postfix expression are read, the fragments on the stack are those of the trees
that the same tokens put on a stack of trees (`Represents`). The invariant also says that no two
fragments on the stack have a state in common and that the names of all states have been handed out,
which is what the next step needs for its parts and its new states. A construction therefore
succeeds exactly when the tokens make one tree (`construct_ok`, `construct_error`). Whether it does
or not, its namer goes on where it was (`precedes_construct`).
-/

namespace FiniteAutomata.Regex

/-- The states of a fragment bear names that a namer has handed out. -/
def Fragment.NamedBy (f : Fragment) (n : Namer) : Prop :=
  ∀ q, f.Touches q → ∃ i < n.next, q = Namer.nameOf n.stem i

/-- Names that have not been handed out are not in use. -/
theorem Fragment.NamedBy.not_touches {f : Fragment} {n : Namer} (h : f.NamedBy n) (count : ℕ) :
    ¬ f.Touches (n.advance count).name :=
  fun hq => n.not_handedOut_advance count (h _ hq)

/-- Names stay handed out. -/
theorem Fragment.NamedBy.advance {f : Fragment} {n : Namer} (h : f.NamedBy n) (count : ℕ) :
    f.NamedBy (n.advance count) :=
  fun q hq => Namer.Precedes.handedOut ⟨count, rfl⟩ (h q hq)

namespace Builder

/-- Taking a token hands out names or does nothing to the namer. -/
theorem precedes_of_consume {b b' : Builder} {t : Token} (h : b.consume t = .ok b') :
    b.namer.Precedes b'.namer := by
  obtain ⟨namer, fragments⟩ := b
  unfold consume at h
  split at h
  · obtain rfl := Except.ok.inj h
    exact ⟨2, rfl⟩
  · contradiction
  · contradiction
  · split at h
    all_goals first
      | contradiction
      | (obtain rfl := Except.ok.inj h; exact ⟨2, rfl⟩)
      | (obtain rfl := Except.ok.inj h; exact .refl _)

/-- A construction hands out names to its end, whether or not it succeeds. -/
theorem precedes_construct (b : Builder) (position : ℕ) (ts : List Token) :
    b.namer.Precedes (b.construct position ts).namer := by
  induction ts generalizing b position with
  | nil => exact .refl _
  | cons t ts ih =>
    unfold construct
    cases hb : b.consume t with
    | error m => exact .refl _
    | ok next => exact (precedes_of_consume hb).trans (ih next (position + 1))

/-- A builder has the fragments of some trees on its stack. -/
structure Represents (b : Builder) (trees : List Tree) : Prop where
  /-- Each fragment reads what the tree in its place stands for. -/
  denotes : List.Forall₂ Fragment.Denotes b.fragments trees
  /-- No two fragments have a state in common. -/
  apart : b.fragments.Pairwise Fragment.Apart
  /-- The names of all states have been handed out. -/
  named : ∀ f ∈ b.fragments, f.NamedBy b.namer

namespace Represents

variable {b b' : Builder} {trees trees' : List Tree} {t : Token} {e : Tree}

/-- At the start the stack is empty. -/
theorem empty (namer : Namer) : Represents ⟨namer, []⟩ [] where
  denotes := .nil
  apart := .nil
  named _ hf := absurd hf List.not_mem_nil

/-- A fragment that is made with the next two names, of the fragments that leave the stack, joins
the rest of the stack. -/
theorem pushNamed {namer : Namer} (used : List Fragment) {rest : List Fragment}
    (h : Represents ⟨namer, used ++ rest⟩ trees)
    (hdenotes : List.Forall₂ Fragment.Denotes rest trees') {make : String → String → Fragment}
    (hmake : ∀ s a, s ≠ a → (∀ f ∈ used, ¬ f.Touches s) → (∀ f ∈ used, ¬ f.Touches a) →
      (make s a).Denotes e)
    (htouches : ∀ s a q, (make s a).Touches q → q = s ∨ q = a ∨ ∃ f ∈ used, f.Touches q) :
    (Builder.pushNamed ⟨namer, used ++ rest⟩ make rest).Represents (e :: trees') := by
  have hs : ∀ f ∈ used ++ rest, ¬ f.Touches namer.name :=
    fun f hf => (h.named f hf).not_touches 0
  have ha : ∀ f ∈ used ++ rest, ¬ f.Touches (namer.advance 1).name :=
    fun f hf => (h.named f hf).not_touches 1
  have hsa : namer.name ≠ (namer.advance 1).name := namer.name_ne_name_advance
  have hused : ∀ f ∈ used, f ∈ used ++ rest := fun f hf => List.mem_append_left rest hf
  have hrest : ∀ f ∈ rest, f ∈ used ++ rest := fun f hf => List.mem_append_right used hf
  obtain ⟨_, hapart, hbetween⟩ := List.pairwise_append.1 h.apart
  -- The parts of the new fragment leave the stack, so the rest need only be apart from it.
  constructor
  · exact .cons (hmake _ _ hsa (fun f hf => hs f (hused f hf)) fun f hf => ha f (hused f hf))
      hdenotes
  · -- The new states are new, and the parts were apart from the rest.
    refine .cons (fun g hg q hq hgq => ?_) hapart
    rcases htouches _ _ q hq with rfl | rfl | ⟨f, hf, hfq⟩
    · exact hs g (hrest g hg) hgq
    · exact ha g (hrest g hg) hgq
    · exact hbetween f hf g hg q hfq hgq
  · intro f hf
    rcases List.mem_cons.1 hf with rfl | hf
    · intro q hq
      rcases htouches _ _ q hq with rfl | rfl | ⟨f, hf, hfq⟩
      · exact ⟨namer.next, Nat.lt_add_of_pos_right (by omega), rfl⟩
      · exact ⟨namer.next + 1, Nat.lt_succ_self _, rfl⟩
      · exact (h.named f (hused f hf)).advance 2 q hfq
    · exact (h.named f (hrest f hf)).advance 2

/-- A fragment for a symbol is put on the stack. -/
theorem symbol {namer : Namer} {fragments : List Fragment}
    (h : Represents ⟨namer, fragments⟩ trees) (c : Char) :
    (Builder.pushNamed ⟨namer, fragments⟩ (fun s a => .symbol s a c) fragments).Represents
      (.symbol c :: trees) := by
  refine pushNamed [] h h.denotes ?_ ?_
  · intro s a hsa _ _
    exact Fragment.denotes_symbol hsa c
  · intro s a q hq
    exact (Fragment.eq_or_eq_of_touches_symbol hq).imp_right .inl

/-- The union of the last two fragments takes their place. -/
theorem union {namer : Namer} {left right : Fragment} {rest : List Fragment} {d : Tree}
    (h : Represents ⟨namer, right :: left :: rest⟩ (e :: d :: trees)) :
    (Builder.pushNamed ⟨namer, right :: left :: rest⟩ (fun s a => .union s a left right)
      rest).Represents (.union d e :: trees) := by
  obtain _ | ⟨hr, _ | ⟨hl, hrest⟩⟩ := h.denotes
  -- The right operand is on top of the stack.
  have hright := (List.pairwise_cons.1 h.apart).1
  refine pushNamed [right, left] h hrest ?_ ?_
  · intro s a hsa hs ha
    have hapart : left.Apart right := fun q hq hq' => hright left (.head _) q hq' hq
    exact hl.union hr hapart hsa ⟨hs left (by simp), hs right (by simp)⟩
      ⟨ha left (by simp), ha right (by simp)⟩
  · intro s a q hq
    rcases Fragment.touches_of_touches_union hl.toHasEnds hr.toHasEnds hq with h | h | h | h
    · exact .inl h
    · exact .inr (.inl h)
    · exact .inr (.inr ⟨left, by simp, h⟩)
    · exact .inr (.inr ⟨right, by simp, h⟩)

/-- The concatenation of the last two fragments takes their place. -/
theorem concat {namer : Namer} {left right : Fragment} {rest : List Fragment} {d : Tree}
    (h : Represents ⟨namer, right :: left :: rest⟩ (e :: d :: trees)) :
    Represents ⟨namer, left.concat right :: rest⟩ (.concat d e :: trees) := by
  obtain ⟨hdenotes, hapart, hnamed⟩ := h
  obtain _ | ⟨hr, _ | ⟨hl, hrest⟩⟩ := hdenotes
  rw [List.pairwise_cons, List.pairwise_cons] at hapart
  obtain ⟨hright, hleft, hapart⟩ := hapart
  have hsymm : left.Apart right := fun q hq hq' => hright left (.head _) q hq' hq
  have htouches {q : String} : (left.concat right).Touches q → left.Touches q ∨ right.Touches q :=
    Fragment.touches_of_touches_concat hl.toHasEnds hr.toHasEnds
  constructor
  · exact .cons (hl.concat hr hsymm) hrest
  · refine .cons (fun g hg q hq => ?_) hapart
    rcases htouches hq with hq | hq
    · exact hleft g hg q hq
    · exact hright g (.tail _ hg) q hq
  · intro f hf
    rcases List.mem_cons.1 hf with rfl | hf
    · intro q hq
      rcases htouches hq with hq | hq
      · exact hnamed left (.tail _ (.head _)) q hq
      · exact hnamed right (.head _) q hq
    · exact hnamed f (.tail _ (.tail _ hf))

/-- A fragment around the last one takes its place. -/
theorem wrap {namer : Namer} {inner : Fragment} {rest : List Fragment} {d : Tree}
    (h : Represents ⟨namer, inner :: rest⟩ (e :: trees))
    {make : String → String → Fragment → Fragment}
    (hmake : ∀ s a, inner.Denotes e → s ≠ a → ¬ inner.Touches s → ¬ inner.Touches a →
      (make s a inner).Denotes d)
    (htouches : ∀ s a q, inner.HasEnds → (make s a inner).Touches q →
      q = s ∨ q = a ∨ inner.Touches q) :
    (Builder.pushNamed ⟨namer, inner :: rest⟩ (fun s a => make s a inner) rest).Represents
      (d :: trees) := by
  obtain _ | ⟨hi, hrest⟩ := h.denotes
  refine pushNamed [inner] h hrest ?_ ?_
  · intro s a hsa hs ha
    exact hmake s a hi hsa (hs inner (.head _)) (ha inner (.head _))
  · intro s a q hq
    refine (htouches s a q hi.toHasEnds hq).imp_right (.imp_right fun h => ?_)
    exact ⟨inner, .head _, h⟩

/-- A token that is taken does to the stack what it does to the stack of trees. -/
theorem consume (h : b.Represents trees) (hb : b.consume t = .ok b') :
    ∃ trees', Tree.push trees t = some trees' ∧ b'.Represents trees' := by
  obtain ⟨namer, fragments⟩ := b
  cases t with
  | opening => contradiction
  | closing => contradiction
  | symbol c =>
    obtain rfl := Except.ok.inj hb
    exact ⟨_, rfl, h.symbol c⟩
  | operator o =>
    -- An operator is taken only with its operands on the stack.
    have hdenotes := h.denotes
    cases o with
    | union =>
      obtain _ | ⟨_, _ | ⟨_, _⟩⟩ := hdenotes
      · contradiction
      · contradiction
      · obtain rfl := Except.ok.inj hb
        exact ⟨_, rfl, h.union⟩
    | concat =>
      obtain _ | ⟨_, _ | ⟨_, _⟩⟩ := hdenotes
      · contradiction
      · contradiction
      · obtain rfl := Except.ok.inj hb
        exact ⟨_, rfl, h.concat⟩
    | star =>
      obtain _ | ⟨_, _⟩ := hdenotes
      · contradiction
      · obtain rfl := Except.ok.inj hb
        exact ⟨_, rfl, h.wrap (fun _ _ => .star) fun _ _ _ => Fragment.touches_of_touches_star⟩
    | plus =>
      obtain _ | ⟨_, _⟩ := hdenotes
      · contradiction
      · obtain rfl := Except.ok.inj hb
        exact ⟨_, rfl, h.wrap (fun _ _ => .plus) fun _ _ _ => Fragment.touches_of_touches_plus⟩

/-- A token that is refused is refused by the stack of trees, for a missing operand if it is no
parenthesis. -/
theorem consume_error (h : b.Represents trees) {m : Misfit} (hb : b.consume t = .error m) :
    Tree.push trees t = none ∧ (t.isParenthesis = false → m = .missingOperand) := by
  obtain ⟨namer, fragments⟩ := b
  cases t with
  | symbol c => contradiction
  | opening => exact ⟨rfl, fun hp => nomatch hp⟩
  | closing => exact ⟨rfl, fun hp => nomatch hp⟩
  | operator o =>
    have hdenotes := h.denotes
    cases o with
    | union | concat =>
      obtain _ | ⟨_, _ | ⟨_, _⟩⟩ := hdenotes
      · exact ⟨rfl, fun _ => (Except.error.inj hb).symm⟩
      · exact ⟨rfl, fun _ => (Except.error.inj hb).symm⟩
      · contradiction
    | star | plus =>
      obtain _ | ⟨_, _⟩ := hdenotes
      · exact ⟨rfl, fun _ => (Except.error.inj hb).symm⟩
      · contradiction

/-- A construction that succeeds ends with one tree on the stack of trees. -/
theorem construct_ok (h : b.Represents trees) {position : ℕ} {ts : List Token}
    {A : Automaton String} (hA : (b.construct position ts).outcome = .ok A) :
    ∃ e, ts.foldlM Tree.push trees = some [e] := by
  induction ts generalizing b trees position with
  | nil =>
    obtain ⟨namer, fragments⟩ := b
    obtain _ | ⟨_, _ | ⟨_, _⟩⟩ := h.denotes
    · contradiction
    · exact ⟨_, rfl⟩
    · contradiction
  | cons t ts ih =>
    unfold construct at hA
    cases hb : b.consume t with
    | error m =>
      rw [hb] at hA
      contradiction
    | ok next =>
      rw [hb] at hA
      obtain ⟨trees', hpush, hnext⟩ := h.consume hb
      rw [List.foldlM_cons, hpush]
      exact ih hnext hA

/-- A construction that fails does not end with one tree on the stack of trees. Without parentheses
it is for a missing operand, unless more than one tree is left. -/
theorem construct_error (h : b.Represents trees) {position : ℕ} {ts : List Token} {m : Malformed}
    (hm : (b.construct position ts).outcome = .error m) :
    (∀ e, ts.foldlM Tree.push trees ≠ some [e]) ∧
      ((∀ t ∈ ts, t.isParenthesis = false) → m.misfit = .missingOperand ∨
        ∃ trees', ts.foldlM Tree.push trees = some trees' ∧ 2 ≤ trees'.length) := by
  induction ts generalizing b trees position with
  | nil =>
    obtain ⟨namer, fragments⟩ := b
    obtain _ | ⟨_, _ | ⟨_, _⟩⟩ := h.denotes
    · obtain rfl := Except.error.inj hm
      exact ⟨fun e he => (nomatch he), fun _ => .inl rfl⟩
    · contradiction
    · exact ⟨fun e he => (nomatch he), fun _ => .inr ⟨_, rfl, by simp⟩⟩
  | cons t ts ih =>
    rw [List.foldlM_cons]
    unfold construct at hm
    cases hb : b.consume t with
    | error misfit =>
      rw [hb] at hm
      obtain ⟨hpush, hmisfit⟩ := h.consume_error hb
      obtain rfl := Except.error.inj hm
      rw [hpush]
      exact ⟨fun e he => (nomatch he), fun hts => .inl (hmisfit (hts t (.head _)))⟩
    | ok next =>
      rw [hb] at hm
      obtain ⟨trees', hpush, hnext⟩ := h.consume hb
      obtain ⟨hne, hwhy⟩ := ih hnext hm
      rw [hpush]
      exact ⟨hne, fun hts => hwhy fun u hu => hts u (.tail _ hu)⟩

end Represents

end Builder

end FiniteAutomata.Regex
