import FiniteAutomata.Proofs.Automaton.Expansion
import FiniteAutomata.Proofs.Automaton.Walk

/-!
# Reading a word step by step

All ways of reading a word can be followed at once by keeping a set of states: at first a state with
its epsilon closure, and after each symbol all that the members move to. After a word the set has
exactly the states that walks lead to which spell the word (`mem_stepwise_iff_walks`).

An epsilon closure may leave out the state that it starts from, so a move puts it back on both
sides of its symbol (`moveFrom_eq_bind`): it starts from the state as well as from its closure, and
brings the closure of each target along with the target. Two moves in a row close the states
between them twice, which adds nothing, since what is held after a move is closed already, as it is
at first.
-/

namespace FiniteAutomata.Automaton

open Std

variable {σ : Type} [Ord σ] [TransOrd σ]

/-- The states held after reading a word step by step from a state. -/
def stepwise (A : Automaton σ) (q : σ) (w : List Char) : FiniteSet σ :=
  w.foldl A.unionOfMoves ((A.epsilonClosure q).insert q)

variable [LawfulEqOrd σ] {A : Automaton σ} {X : FiniteSet σ} {q r : σ} {c : Char} {w : List Char}

/-! ## One step -/

/-- A move leaves from the state and its closure, and each target brings its closure along. -/
theorem moveFrom_eq_bind (A : Automaton σ) (q : σ) (c : Char) :
    A.moveFrom q c = FiniteSet.bind ((A.epsilonClosure q).insert q) fun p =>
      FiniteSet.bind (A.targets p (.symbol c)) fun p' => (A.epsilonClosure p').insert p' := by
  refine ExtTreeSet.ext_mem fun r => ?_
  simp only [mem_moveFrom, Path.cons_iff, FiniteSet.mem_bind, mem_insert_epsilonClosure,
    mem_targets, Set.mem_ofPred_eq]
  constructor
  · rintro ⟨p, p', hp, ht, hr⟩
    exact ⟨p, hp, p', ht, hr⟩
  · rintro ⟨p, hp, p', ht, hr⟩
    exact ⟨p, p', hp, ht, hr⟩

/-- A move takes walks that read the symbol once and nothing else. -/
theorem mem_moveFrom_iff_exists_walk : r ∈ A.moveFrom q c ↔ ∃ before p p' after,
    A.Walks q (before ++ ⟨p, .symbol c, p'⟩ :: after) r ∧
      ∀ t ∈ before ++ after, t.isEpsilon = true := by
  rw [moveFrom_eq_bind]
  simp only [FiniteSet.mem_bind, mem_insert_epsilonClosure, mem_targets, leads_nil_iff_exists_walk,
    isWalk_append, List.forall_mem_append]
  constructor
  · rintro ⟨p, ⟨before, hbefore, hbeforelabels⟩, p', ht, after, hafter, hafterlabels⟩
    exact ⟨before, p, p', after, ⟨p, hbefore, rfl, ht, hafter⟩, hbeforelabels, hafterlabels⟩
  · rintro ⟨before, p, p', after, ⟨_, hbefore, rfl, ht, hafter⟩, hbeforelabels, hafterlabels⟩
    exact ⟨p, ⟨before, hbefore, hbeforelabels⟩, p', ht, after, hafter, hafterlabels⟩

/-! ## Many steps -/

/-- What is held after a symbol is what a move of the whole set leads to. -/
theorem stepwise_eq_foldl_move (A : Automaton σ) (q : σ) (w : List Char) :
    A.stepwise q w = w.foldl A.move ((A.epsilonClosure q).insert q) := by
  have hmove : A.unionOfMoves = A.move := funext₂ A.unionOfMoves_eq_move
  rw [stepwise, hmove]

/-- After a word the states are held that it leads to. -/
theorem mem_stepwise : r ∈ A.stepwise q w ↔ A.Leads q w r := by
  -- Moves of a set rely on its being closed under epsilon transitions.
  have hclosed : ∀ p ∈ (A.epsilonClosure q).insert q, ∀ p', A.Leads p [] p' →
      p' ∈ (A.epsilonClosure q).insert q := fun p hp p' hpp' =>
    mem_insert_epsilonClosure.2 ((mem_insert_epsilonClosure.1 hp).trans hpp')
  rw [stepwise_eq_foldl_move, mem_foldl_move hclosed]
  constructor
  · rintro ⟨p, hp, hpr⟩
    exact (mem_insert_epsilonClosure.1 hp).trans hpr
  · intro h
    exact ⟨q, mem_insert_epsilonClosure.2 (.nil q), h⟩

/-! ## Main result -/

/-- Stepping follows the walks: after a word the states are held that walks lead to which spell it,
and a single move leads where a walk does that reads its symbol between epsilon transitions. -/
theorem mem_stepwise_iff_walks (A : Automaton σ) (q : σ) :
    (∀ w r, r ∈ A.stepwise q w ↔ ∃ ts, A.Walks q ts r ∧ spelled ts = w) ∧
      ∀ c r, r ∈ A.moveFrom q c ↔ ∃ before p p' after,
        A.Walks q (before ++ ⟨p, .symbol c, p'⟩ :: after) r ∧
          ∀ t ∈ before ++ after, t.isEpsilon = true :=
  ⟨fun _ _ => mem_stepwise.trans leads_iff_exists_walk, fun _ _ => mem_moveFrom_iff_exists_walk⟩

/-- In the cyclic automaton a walk spells `zab`, and one from `q` reads `z` and comes back to `q` by
epsilon transitions around it. From a state that it does not know only the empty word leads on, to
this state. -/
theorem mem_stepwise_iff_walks_cyclicAutomaton :
    (∃ ts, cyclicAutomaton.Walks "p" ts "r" ∧ spelled ts = ['z', 'a', 'b']) ∧
      (∃ before p p' after,
        cyclicAutomaton.Walks "q" (before ++ ⟨p, .symbol 'z', p'⟩ :: after) "q" ∧
          ∀ t ∈ before ++ after, t.isEpsilon = true) ∧
      (∃ ts, cyclicAutomaton.Walks "x" ts "x" ∧ spelled ts = []) ∧
      ¬ ∃ ts, cyclicAutomaton.Walks "x" ts "r" ∧ spelled ts = ['a'] := by
  obtain ⟨hp, -⟩ := mem_stepwise_iff_walks cyclicAutomaton "p"
  obtain ⟨-, hq⟩ := mem_stepwise_iff_walks cyclicAutomaton "q"
  obtain ⟨hx, -⟩ := mem_stepwise_iff_walks cyclicAutomaton "x"
  have hheld : "r" ∈ cyclicAutomaton.stepwise "p" ['z', 'a', 'b'] ∧
      "q" ∈ cyclicAutomaton.moveFrom "q" 'z' ∧ "x" ∈ cyclicAutomaton.stepwise "x" [] ∧
      "r" ∉ cyclicAutomaton.stepwise "x" ['a'] := by decide +kernel
  obtain ⟨hword, hback, hstay, hnone⟩ := hheld
  exact ⟨(hp _ _).1 hword, (hq _ _).1 hback, (hx _ _).1 hstay, mt (hx _ _).2 hnone⟩

end FiniteAutomata.Automaton
