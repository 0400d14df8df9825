import FiniteAutomata.Log.Steps
import FiniteAutomata.Proofs.Automaton.Determinism
import Mathlib.Data.Set.Card

/-!
# The sets that determinization expands

A determinization keeps the sets that are still to be expanded on a stack and goes on until this is
empty. Which sets come to be expanded does not depend on the stack: they are the least family that
holds the start states with what epsilon transitions reach from them, and with a set the union of
what its members reach by a symbol, the empty set left out (`Arises`). Each set of the family is
expanded once, and the log and the parts of the result are told by the family
(`isExpansion_determinizeLogged`). Two sets of one name are still two sets here.

The family is what the search reaches: the start set and the moves, which are computed by closing
sets of states, are the unions over the states that the family is defined by. The search is over
finitely many sets, so the stack runs empty before the rounds of the search do, and the sets without
the empty one are fewer than the subsets of the states.
-/

namespace FiniteAutomata.Automaton

open Std Search

variable {σ : Type} [Ord σ] [TransOrd σ]

/-- The start states, and what epsilon transitions reach from each of them. -/
def closedStarts (A : Automaton σ) : FiniteSet σ :=
  FiniteSet.bind A.starts fun q => (A.epsilonClosure q).insert q

/-- What the members of a set reach by a symbol. -/
def unionOfMoves (A : Automaton σ) (X : FiniteSet σ) (c : Char) : FiniteSet σ :=
  FiniteSet.bind X fun q => A.moveFrom q c

/-- The sets of states that arise on reading: the least family with the closed start states and all
that its members move to, the empty set left out. -/
inductive Arises (A : Automaton σ) : FiniteSet σ → Prop where
  /-- Reading starts with the closed start states. -/
  | start (h : A.closedStarts ≠ ∅) : Arises A A.closedStarts
  /-- A symbol of the alphabet leads from a set to the union of the moves of its members. -/
  | step {X : FiniteSet σ} {c : Char} (hX : Arises A X) (hc : c ∈ A.alphabet)
      (h : A.unionOfMoves X c ≠ ∅) : Arises A (A.unionOfMoves X c)

section Lawful

variable [LawfulEqOrd σ] {A : Automaton σ}

/-- An epsilon closure holds the states that epsilon transitions lead to after a first one. -/
theorem mem_insert_epsilonClosure {q r : σ} :
    r ∈ (A.epsilonClosure q).insert q ↔ A.Leads q [] r := by
  rw [FiniteSet.mem_insert_iff, mem_epsilonClosure]
  constructor
  · rintro (rfl | ⟨p, hp, hr⟩)
    · exact .nil r
    · exact .epsilon (mem_targets.1 hp) hr
  · intro h
    cases h with
    | nil => exact .inl rfl
    | epsilon ht hr => exact .inr ⟨_, mem_targets.2 ht, hr⟩

/-- The start set is the set of the closed start states. -/
theorem closedStarts_eq_startSet (A : Automaton σ) : A.closedStarts = A.startSet := by
  refine ExtTreeSet.ext_mem fun r => ?_
  simp only [closedStarts, FiniteSet.mem_bind, mem_insert_epsilonClosure, startSet, mem_close]

/-- A set moves to the union of the moves of its members. -/
theorem unionOfMoves_eq_move (A : Automaton σ) (X : FiniteSet σ) (c : Char) :
    A.unionOfMoves X c = A.move X c := by
  refine ExtTreeSet.ext_mem fun r => ?_
  simp only [unionOfMoves, FiniteSet.mem_bind, mem_moveFrom, mem_move]

/-- The search finds the sets that arise. -/
theorem mem_subsets_iff_arises {X : FiniteSet σ} : X ∈ A.subsets ↔ A.Arises X := by
  rw [mem_subsets_iff, ← closedStarts_eq_startSet]
  constructor
  · rintro ⟨hstart, hreach⟩
    induction hreach with
    | refl => exact .start hstart
    | tail _ hY ih =>
      obtain ⟨⟨c, hc, rfl⟩, hne⟩ := mem_moves.1 hY
      rw [← unionOfMoves_eq_move] at hne ⊢
      exact ih.step hc hne
  · intro h
    induction h with
    | start h => exact ⟨h, .refl⟩
    | @step X c _ hc h ih =>
      refine ⟨ih.1, ih.2.tail (mem_moves.2 ⟨⟨c, hc, ?_⟩, h⟩)⟩
      exact (A.unionOfMoves_eq_move X c).symm

/-- A set that arises has a member. -/
theorem Arises.ne_empty {X : FiniteSet σ} (h : A.Arises X) : X ≠ ∅ :=
  ne_empty_of_mem_subsets (mem_subsets_iff_arises.2 h)

/-- A set that arises consists of states that a transition touches or that are start states. -/
theorem Arises.mem_union {X : FiniteSet σ} (h : A.Arises X) {q : σ} (hq : q ∈ X) :
    q ∈ A.states ∪ A.starts := by
  rw [ExtTreeSet.mem_union_iff]
  cases h with
  | start =>
    rw [closedStarts_eq_startSet] at hq
    obtain ⟨p, hp, hpq⟩ := mem_close.1 hq
    obtain rfl | hq := eq_or_mem_states_of_leads hpq
    · exact .inr hp
    · exact .inl hq
  | step _ _ _ =>
    rw [unionOfMoves_eq_move] at hq
    exact .inl (mem_states_of_mem_move hq)

/-- Without start states no set arises, and the search finds nothing. -/
theorem subsets_eq_nil_iff : A.subsets = [] ↔ A.starts = ∅ := by
  rw [← startSet_eq_empty_iff, List.eq_nil_iff_forall_not_mem]
  constructor
  · intro h
    by_contra hne
    exact h _ (mem_subsets_iff.2 ⟨hne, .refl⟩)
  · intro h X hX
    exact (mem_subsets_iff.1 hX).1 h

/-- No set is found twice. -/
theorem nodup_subsets (A : Automaton σ) : A.subsets.Nodup := by
  rw [subsets]
  split
  · exact .nil
  · exact nodup_search A.encloses_subsets

/-- The search for the sets goes on until nothing is pending. -/
theorem exhausts_subsets (h : A.starts ≠ ∅) :
    Exhausts .depthFirst A.moves [A.startSet] ((∅ : FiniteSet (FiniteSet σ)).insert A.startSet)
      A.subsets := by
  have hsearch := A.encloses_subsets.exhausts .depthFirst
  rw [subsets, if_neg (mt ExtTreeSet.isEmpty_iff.1 (mt startSet_eq_empty_iff.1 h))]
  simpa [discover, Discipline.join] using hsearch

/-- The sets that are found are all that arise, each counted once. -/
theorem length_subsets (A : Automaton σ) : A.subsets.length = {X | A.Arises X}.ncard := by
  let found : Finset (FiniteSet σ) := ⟨A.subsets, A.nodup_subsets⟩
  have hfound : {X | A.Arises X} = ↑found := by
    ext X
    exact mem_subsets_iff_arises.symm
  rw [hfound, Set.ncard_coe_finset]
  rfl

/-- The sets that are found are fewer than the subsets of the states, start states included. -/
theorem length_subsets_le (A : Automaton σ) :
    A.subsets.length ≤ 2 ^ (A.states ∪ A.starts).size - 1 := by
  classical
  let nonempty : Finset (FiniteSet σ) := (A.states ∪ A.starts).subsets.erase ∅
  have hcard : nonempty.card = 2 ^ (A.states ∪ A.starts).size - 1 :=
    FiniteSet.card_erase_subsets _
  have hsubset : {X | A.Arises X} ⊆ ↑nonempty := by
    intro X hX
    exact Finset.mem_erase.2 ⟨hX.ne_empty, FiniteSet.mem_subsets.2 fun q hq => hX.mem_union hq⟩
  rw [length_subsets, ← hcard, ← Set.ncard_coe_finset]
  exact Set.ncard_le_ncard hsubset

end Lawful

/-! ## Log and result -/

/-- What a determinization is in terms of the sets that arise, `order` being the sets in the order
in which they were expanded. -/
structure IsExpansion [StateText σ] (A : Automaton σ) (order : List (FiniteSet σ))
    (D : Logged (Automaton String)) : Prop where
  /-- The sets come off the stack in this order, which is empty in the end. -/
  exhausts : A.starts ≠ ∅ → Exhausts .depthFirst A.moves [A.closedStarts]
    ((∅ : FiniteSet (FiniteSet σ)).insert A.closedStarts) order
  /-- No set is expanded twice. -/
  nodup : order.Nodup
  /-- The sets that arise are expanded, and no others. -/
  mem_iff : ∀ X, X ∈ order ↔ A.Arises X
  /-- They are as many as arise. -/
  length_eq : order.length = {X | A.Arises X}.ncard
  /-- They are fewer than the subsets of the states, start states included. -/
  length_le : order.length ≤ 2 ^ (A.states ∪ A.starts).size - 1
  /-- The log has a line for each of them, and then their number if there is a start state. -/
  log_eq : D.log = order.map (fun X => ⟨.debug, "nfa2dfa: expanding " ++ X.name⟩) ++
    if A.starts.isEmpty then []
    else [⟨.debug, "nfa2dfa: " ++ toString order.length ++ " composite states"⟩]
  /-- The transitions are the loops of the trap and those from the names of the sets that arise to
  the names of what they move to, or to the trap. -/
  mem_transitions : ∀ t, t ∈ D.value.transitions ↔
    (∃ c ∈ A.alphabet, t = ⟨trapName, .symbol c, trapName⟩) ∨
      ∃ X, A.Arises X ∧ ∃ c ∈ A.alphabet, t = ⟨X.name, .symbol c,
        if (A.unionOfMoves X c).isEmpty then trapName else (A.unionOfMoves X c).name⟩
  /-- The final states are the names of the sets that arise and have a final state. -/
  mem_finals : ∀ q, q ∈ D.value.finals ↔
    ∃ X, A.Arises X ∧ (∃ r ∈ X, r ∈ A.finals) ∧ q = X.name
  /-- The start state is the name of the closed start states, if there are any. -/
  mem_starts : ∀ q, q ∈ D.value.starts ↔ A.starts ≠ ∅ ∧ q = A.closedStarts.name

/-- A determinization expands the sets that arise. -/
theorem isExpansion_determinizeLogged [LawfulEqOrd σ] [StateText σ] (A : Automaton σ) :
    A.IsExpansion A.subsets A.determinizeLogged where
  exhausts h := by
    rw [closedStarts_eq_startSet]
    exact exhausts_subsets h
  nodup := A.nodup_subsets
  mem_iff X := mem_subsets_iff_arises
  length_eq := A.length_subsets
  length_le := A.length_subsets_le
  log_eq := by
    show subsetEntries A.subsets = _
    rw [subsetEntries]
    by_cases h : A.starts = ∅
    · rw [subsets_eq_nil_iff.2 h, h]
      rfl
    · rw [if_neg (mt List.isEmpty_iff.1 (mt subsets_eq_nil_iff.1 h)),
        if_neg (mt ExtTreeSet.isEmpty_iff.1 h)]
  mem_transitions t := by
    show t ∈ (A.subsetAutomaton A.subsets).transitions ↔ _
    rw [mem_transitions_subsetAutomaton]
    simp only [mem_subsets_iff_arises, unionOfMoves_eq_move, eq_comm (a := t)]
    rfl
  mem_finals q := by
    show q ∈ A.determinize.finals ↔ _
    rw [mem_finals_determinize]
    simp only [mem_subsets_iff_arises, eq_comm (a := q)]
  mem_starts q := by
    show q ∈ A.determinize.starts ↔ _
    rw [mem_starts_determinize, closedStarts_eq_startSet]
    refine and_congr_right fun h => ?_
    rw [FiniteSet.stateName_of_ne_empty (mt startSet_eq_empty_iff.1 h)]

/-- Where two sets have one name, both are expanded. -/
theorem isExpansion_collidingAutomaton :
    collidingAutomaton.IsExpansion collidingAutomaton.subsets collidingAutomaton.determinizeLogged ∧
      collidingAutomaton.subsets.map FiniteSet.name = ["{s}", "{a,b}", "{a,b}", "{f}"] :=
  ⟨isExpansion_determinizeLogged collidingAutomaton, by decide +kernel⟩

end FiniteAutomata.Automaton
