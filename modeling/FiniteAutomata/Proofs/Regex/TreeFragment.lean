import FiniteAutomata.Proofs.Regex.Thompson

/-!
# Fragments of syntax trees

The construction follows the syntax tree: the names for the states of a tree are handed out to its
operands first, from left to right, and the fragment is made of those of the operands
(`Tree.fragment`). Reading the tokens of the tree in postfix order comes to this fragment, with any
namer and on top of any stack (`foldlM_consume_postorder`), so a construction of a whole tree gives
its automaton (`construct_postorder`).

By the invariant of the construction the fragment reads what the tree stands for and its states bear
names that have been handed out, but had not been before (`Tree.not_handedOut_of_touches`). The
fragments of two trees, the names of the second after those of the first, have no state in common,
so they can be made parts of one fragment (`Tree.areParts_fragment`). Each symbol of a tree is read by
one transition of its own (`Tree.countP_transitions_fragment`).
-/

namespace FiniteAutomata.Regex

namespace Tree

/-- The namer after the states of a tree have got their names. -/
def namerAfter : Tree → Namer → Namer
  | symbol _, n => n.advance 2
  | union left right, n => (right.namerAfter (left.namerAfter n)).advance 2
  | concat left right, n => right.namerAfter (left.namerAfter n)
  | star inner, n => (inner.namerAfter n).advance 2
  | plus inner, n => (inner.namerAfter n).advance 2

/-- The fragment of a tree with the names of a namer. -/
def fragment : Tree → Namer → Fragment
  | symbol c, n => .symbol n.name (n.advance 1).name c
  | union left right, n =>
    let rest := right.namerAfter (left.namerAfter n)
    .union rest.name (rest.advance 1).name (left.fragment n) (right.fragment (left.namerAfter n))
  | concat left right, n => (left.fragment n).concat (right.fragment (left.namerAfter n))
  | star inner, n =>
    let rest := inner.namerAfter n
    .star rest.name (rest.advance 1).name (inner.fragment n)
  | plus inner, n =>
    let rest := inner.namerAfter n
    .plus rest.name (rest.advance 1).name (inner.fragment n)

end Tree

/-! ## Constructions of trees -/

/-- Taking the tokens of a tree in postfix order puts its fragment on the stack. -/
theorem foldlM_consume_postorder (e : Tree) (n : Namer) (fragments : List Fragment) :
    e.postorder.foldlM Builder.consume ⟨n, fragments⟩ =
      .ok ⟨e.namerAfter n, e.fragment n :: fragments⟩ := by
  induction e generalizing n fragments with
  | symbol c => rfl
  | union left right hl hr | concat left right hl hr =>
    rw [Tree.postorder, List.foldlM_append, List.foldlM_append, hl]
    show ((right.postorder.foldlM Builder.consume ⟨left.namerAfter n, _⟩).bind _) = _
    rw [hr]
    rfl
  | star inner ih | plus inner ih =>
    rw [Tree.postorder, List.foldlM_append, ih]
    rfl

/-- After tokens that are taken, a construction goes on from where they lead to. -/
theorem Builder.construct_append {b b' : Builder} {us : List Token} (position : ℕ) (vs : List Token)
    (h : us.foldlM Builder.consume b = .ok b') :
    ∃ heights, heights.length = us.length ∧
      b.construct position (us ++ vs) =
        { b'.construct (position + us.length) vs with
          heights := heights ++ (b'.construct (position + us.length) vs).heights } := by
  induction us generalizing b position with
  | nil =>
    obtain rfl := Except.ok.inj h
    exact ⟨[], rfl, rfl⟩
  | cons t us ih =>
    rw [List.foldlM_cons] at h
    rw [List.cons_append, construct]
    cases hb : b.consume t with
    | error m =>
      rw [hb] at h
      contradiction
    | ok next =>
      rw [hb] at h
      obtain ⟨heights, hlength, hrest⟩ := ih (position + 1) h
      rw [List.length_cons, Nat.add_comm us.length, ← Nat.add_assoc]
      dsimp only
      rw [hrest]
      exact ⟨b.fragments.length :: heights, by rw [List.length_cons, hlength, Nat.add_comm], rfl⟩

/-- After tokens that are taken, a construction finishes with the namer that is left. -/
theorem Builder.construct_of_foldlM {b b' : Builder} {ts : List Token} (position : ℕ)
    (h : ts.foldlM Builder.consume b = .ok b') :
    (b.construct position ts).namer = b'.namer ∧
      (b.construct position ts).outcome = b'.finish (position + ts.length) := by
  obtain ⟨heights, -, hconstruct⟩ := Builder.construct_append position [] h
  rw [List.append_nil] at hconstruct
  rw [hconstruct]
  exact ⟨rfl, rfl⟩

/-- The construction from the tokens of a tree in postfix order gives the automaton of its
fragment. -/
theorem construct_postorder (e : Tree) (n : Namer) :
    (thompson e.postorder n).namer = e.namerAfter n ∧
      (thompson e.postorder n).outcome = .ok (e.fragment n).toAutomaton :=
  Builder.construct_of_foldlM 0 (foldlM_consume_postorder e n [])

/-! ## What the fragments are like -/

/-- A fragment can be made part of another one: it has its ends, and a namer has handed out the
names of its states. -/
structure Fragment.IsPart (n : Namer) (f : Fragment) : Prop extends f.HasEnds where
  /-- The names have been handed out. -/
  named : f.NamedBy n

/-- Two fragments can be made parts of another one: they have no state in common. -/
structure Fragment.AreParts (n : Namer) (f g : Fragment) : Prop where
  /-- The first one can be made a part. -/
  left : Fragment.IsPart n f
  /-- The second one can be made a part. -/
  right : Fragment.IsPart n g
  /-- No state belongs to both. -/
  apart : f.Apart g

/-- The order of the parts does not matter. -/
theorem Fragment.AreParts.symm {n : Namer} {f g : Fragment} (h : AreParts n f g) :
    AreParts n g f where
  left := h.right
  right := h.left
  apart q hq hq' := h.apart q hq' hq

namespace Tree

variable {n : Namer} {fragments : List Fragment} {trees : List Tree}

/-- The fragment of a tree may be put on any stack. -/
theorem represents_fragment (e : Tree) (h : Builder.Represents ⟨n, fragments⟩ trees) :
    Builder.Represents ⟨e.namerAfter n, e.fragment n :: fragments⟩ (e :: trees) := by
  induction e generalizing n fragments trees with
  | symbol c => exact h.symbol c
  | union left right hl hr => exact (hr (hl h)).union
  | concat left right hl hr => exact (hr (hl h)).concat
  | star inner ih =>
    exact (ih h).wrap (fun _ _ => .star) fun _ _ _ => Fragment.touches_of_touches_star
  | plus inner ih =>
    exact (ih h).wrap (fun _ _ => .plus) fun _ _ _ => Fragment.touches_of_touches_plus

/-- The fragment of a tree reads what the tree stands for. -/
theorem denotes_fragment (e : Tree) (n : Namer) : (e.fragment n).Denotes e := by
  obtain _ | ⟨h, -⟩ := (e.represents_fragment (.empty n)).denotes
  exact h

/-- The fragment of a tree can be made a part. -/
theorem isPart_fragment (e : Tree) (n : Namer) :
    Fragment.IsPart (e.namerAfter n) (e.fragment n) where
  toHasEnds := (e.denotes_fragment n).toHasEnds
  named := (e.represents_fragment (.empty n)).named _ (.head _)

/-- Fragments of two trees that follow one another can be made parts. -/
theorem areParts_fragment (d e : Tree) (n : Namer) :
    Fragment.AreParts (e.namerAfter (d.namerAfter n)) (d.fragment n)
      (e.fragment (d.namerAfter n)) := by
  have h := e.represents_fragment (d.represents_fragment (.empty n))
  have hapart := (List.pairwise_cons.1 h.apart).1 _ (.head _)
  exact
    { left := ⟨(d.denotes_fragment n).toHasEnds, h.named _ (.tail _ (.head _))⟩
      right := ⟨(e.denotes_fragment _).toHasEnds, h.named _ (.head _)⟩
      apart := fun q hq hq' => hapart q hq' hq }

/-! ## New names -/

/-- The states of a tree get the next names. -/
theorem precedes_namerAfter (e : Tree) (n : Namer) : n.Precedes (e.namerAfter n) := by
  induction e generalizing n with
  | symbol c => exact ⟨2, rfl⟩
  | union left right hl hr => exact ((hl n).trans (hr _)).trans ⟨2, rfl⟩
  | concat left right hl hr => exact (hl n).trans (hr _)
  | star inner ih | plus inner ih => exact (ih n).trans ⟨2, rfl⟩

/-- The states of a fragment bear names that had not been handed out before. -/
theorem not_handedOut_of_touches {e : Tree} {q : String} (hq : (e.fragment n).Touches q) :
    ¬ n.HandedOut q := by
  induction e generalizing n with
  | symbol c =>
    rcases Fragment.eq_or_eq_of_touches_symbol hq with rfl | rfl
    · exact n.not_handedOut_advance 0
    · exact n.not_handedOut_advance 1
  | union left right hl hr =>
    have hparts := (left.precedes_namerAfter n).trans (right.precedes_namerAfter _)
    rcases Fragment.touches_of_touches_union (left.isPart_fragment _).toHasEnds
      (right.isPart_fragment _).toHasEnds hq with rfl | rfl | hq | hq
    · exact hparts.not_handedOut_advance 0
    · exact hparts.not_handedOut_advance 1
    · exact hl hq
    · exact fun h => hr hq ((left.precedes_namerAfter n).handedOut h)
  | concat left right hl hr =>
    rcases Fragment.touches_of_touches_concat (left.isPart_fragment _).toHasEnds
      (right.isPart_fragment _).toHasEnds hq with hq | hq
    · exact hl hq
    · exact fun h => hr hq ((left.precedes_namerAfter n).handedOut h)
  | star inner ih =>
    rcases Fragment.touches_of_touches_star (inner.isPart_fragment _).toHasEnds hq with
      rfl | rfl | hq
    · exact (inner.precedes_namerAfter n).not_handedOut_advance 0
    · exact (inner.precedes_namerAfter n).not_handedOut_advance 1
    · exact ih hq
  | plus inner ih =>
    rcases Fragment.touches_of_touches_plus (inner.isPart_fragment _).toHasEnds hq with
      rfl | rfl | hq
    · exact (inner.precedes_namerAfter n).not_handedOut_advance 0
    · exact (inner.precedes_namerAfter n).not_handedOut_advance 1
    · exact ih hq

/-! ## Symbols -/

/-- The fragment of a tree reads a symbol on as many transitions as the symbol occurs. -/
theorem countP_transitions_fragment (e : Tree) (n : Namer) (c : Char) :
    ((e.fragment n).transitions.countP fun t => t.label = .symbol c) =
      e.postorder.count (.symbol c) := by
  induction e generalizing n with
  | symbol d => simp [fragment, Fragment.symbol, postorder, List.count_singleton]
  | union left right hl hr | concat left right hl hr =>
    -- The new transitions read nothing.
    simp [fragment, Fragment.union, Fragment.concat, postorder, hl, hr]
  | star inner ih | plus inner ih =>
    simp [fragment, Fragment.star, Fragment.plus, postorder, ih]

/-- The symbols that the fragment of a tree reads are those of the tree. -/
theorem symbol_mem_postorder_iff {e : Tree} {n : Namer} {c : Char} : .symbol c ∈ e.postorder ↔
    ∃ q r, ⟨q, .symbol c, r⟩ ∈ (e.fragment n).transitions := by
  rw [← List.count_pos_iff, ← e.countP_transitions_fragment n, List.countP_pos_iff]
  simp only [decide_eq_true_eq]
  constructor
  · rintro ⟨⟨q, _, r⟩, ht, rfl⟩
    exact ⟨q, r, ht⟩
  · rintro ⟨q, r, ht⟩
    exact ⟨_, ht, rfl⟩

end Tree

end FiniteAutomata.Regex
