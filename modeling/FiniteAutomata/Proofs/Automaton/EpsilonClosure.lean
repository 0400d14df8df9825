import FiniteAutomata.Proofs.Automaton.Walk
import Mathlib.Logic.Function.Iterate

/-!
# Collecting an epsilon closure

The states that epsilon transitions reach from a state can be collected with a stack and a set of
kept states. At first the targets of the state are on the stack; a round takes the top state off,
and if this is not kept yet it is kept and its own targets are put on. Nobody looks whether a
target is there already, so a state may stand on the stack several times, and along a cycle kept
states come onto it again.

The stack runs empty all the same (`Gathers.exists_iterate`). An epsilon transition puts its target
on the stack once, in the round that keeps its source, and each round takes one state off, so the
rounds are counted by the transitions that leave the kept states. Once the stack is empty, what is
kept is closed under epsilon transitions, and it is the epsilon closure. The state itself is kept
only if it comes onto the stack, which takes a cycle (`isEpsilonClosure_epsilonClosure`).
-/

namespace FiniteAutomata

open Std

/-- A collection under way: the states to be looked at, the top of the stack first, and the states
that are kept. -/
structure Worklist (σ : Type) [Ord σ] where
  /-- The states to be looked at, in which a state may stand several times. -/
  stack : List σ
  /-- The states that are kept. -/
  kept : FiniteSet σ

namespace Automaton

variable {σ : Type} [Ord σ] [TransOrd σ]

/-- The worklist with the targets of a state on the stack, the last one on top. -/
def seeded (A : Automaton σ) (q : σ) : Worklist σ := ⟨(A.targets q .epsilon).toList.reverse, ∅⟩

/-- A round: the top state is taken off, and unless it is kept already it is kept and its targets
are put on. -/
def lookAtTop (A : Automaton σ) : Worklist σ → Worklist σ
  | ⟨[], kept⟩ => ⟨[], kept⟩
  | ⟨q :: stack, kept⟩ =>
    if q ∈ kept then ⟨stack, kept⟩
    else ⟨(A.targets q .epsilon).toList.reverse ++ stack, kept.insert q⟩

/-- The epsilon transitions that leave the members of a set. -/
def epsilonsFrom (A : Automaton σ) (X : FiniteSet σ) : Finset (Transition σ) :=
  A.transitions.toFinset.filter fun t => t.isEpsilon = true ∧ t.source ∈ X

/-- The epsilon transitions that leave a state, one for each target. -/
def epsilonsOf (A : Automaton σ) (q : σ) : Finset (Transition σ) :=
  (A.targets q .epsilon).toFinset.map
    ⟨fun r => ⟨q, .epsilon, r⟩, fun _ _ h => (Transition.mk.inj h).2.2⟩

/-- The number of states that have been put on the stack when a set is kept: the targets of the
state that collecting starts from, and a target for each epsilon transition that leaves the set. -/
def rounds (A : Automaton σ) (q : σ) (X : FiniteSet σ) : ℕ :=
  (A.targets q .epsilon).size + (A.epsilonsFrom X).card

/-- A closed walk of epsilon transitions passes the state. -/
def OnEpsilonCycle (A : Automaton σ) (q : σ) : Prop :=
  ∃ p cycle, A.Walks p cycle p ∧ (∀ t ∈ cycle, t.isEpsilon = true) ∧ ∃ t ∈ cycle, t.source = q

/-- A set is what is collected from a state, and holds what epsilon transitions reach from there. -/
structure IsEpsilonClosure (A : Automaton σ) (q : σ) (X : FiniteSet σ) : Prop where
  /-- There is something on the stack before each of the rounds. -/
  stack_ne_nil : ∀ m < A.rounds q X, (A.lookAtTop^[m] (A.seeded q)).stack ≠ []
  /-- After the rounds the stack is empty and the set is kept. -/
  iterate_eq : A.lookAtTop^[A.rounds q X] (A.seeded q) = ⟨[], X⟩
  /-- The members are the states that walks of one epsilon transition or more lead to. -/
  mem_iff : ∀ r, r ∈ X ↔
    ∃ ts, ts ≠ [] ∧ A.Walks q ts r ∧ ∀ t ∈ ts, t.isEpsilon = true
  /-- The state itself is a member exactly when it lies on a cycle of epsilon transitions. -/
  self_mem_iff : q ∈ X ↔ A.OnEpsilonCycle q

variable [LawfulEqOrd σ] {A : Automaton σ} {X : FiniteSet σ} {p q r : σ} {m : ℕ} {w : Worklist σ}

/-! ## Members of a closure -/

/-- A closure is closed under epsilon transitions. -/
theorem mem_epsilonClosure_of_mem_targets (hp : p ∈ A.epsilonClosure q)
    (hr : r ∈ A.targets p .epsilon) : r ∈ A.epsilonClosure q :=
  mem_close_of_leads hp (.epsilon (mem_targets.1 hr) (.nil r))

/-- A closure holds what walks of epsilon transitions lead to that take one at least. -/
theorem mem_epsilonClosure_iff_exists_walk : r ∈ A.epsilonClosure q ↔
    ∃ ts, ts ≠ [] ∧ A.Walks q ts r ∧ ∀ t ∈ ts, t.isEpsilon = true := by
  simp only [mem_epsilonClosure, leads_nil_iff_exists_walk]
  constructor
  · -- The closure begins with the targets of the state, and the walk with a transition to one.
    rintro ⟨p, hp, ts, hwalk, hts⟩
    exact ⟨⟨q, .epsilon, p⟩ :: ts, List.cons_ne_nil _ _, ⟨rfl, mem_targets.1 hp, hwalk⟩,
      List.forall_mem_cons.2 ⟨rfl, hts⟩⟩
  · rintro ⟨_ | ⟨⟨source, label, p⟩, ts⟩, hne, hwalk, hts⟩
    · contradiction
    · obtain ⟨rfl, ht, hrest⟩ := hwalk
      obtain ⟨hlabel, hrestlabels⟩ := List.forall_mem_cons.1 hts
      obtain rfl : label = .epsilon := of_decide_eq_true hlabel
      exact ⟨p, mem_targets.2 ht, ts, hrest, hrestlabels⟩

/-- A state is reached from itself exactly when it lies on a cycle. -/
theorem self_mem_epsilonClosure_iff : q ∈ A.epsilonClosure q ↔ A.OnEpsilonCycle q := by
  rw [mem_epsilonClosure_iff_exists_walk]
  constructor
  · rintro ⟨_ | ⟨t, ts⟩, hne, hwalk, hts⟩
    · contradiction
    · exact ⟨q, t :: ts, hwalk, hts, t, .head _, hwalk.1⟩
  · -- The cycle is turned until it begins with the state.
    rintro ⟨p, cycle, hwalk, hcycle, t, ht, rfl⟩
    obtain ⟨before, after, rfl⟩ := List.append_of_mem ht
    obtain ⟨_, hbefore, rfl, htmem, hafter⟩ := isWalk_append.1 hwalk
    have hturned : A.Walks t.source (t :: (after ++ before)) t.source :=
      ⟨rfl, htmem, isWalk_append.2 ⟨p, hafter, hbefore⟩⟩
    exact ⟨t :: (after ++ before), List.cons_ne_nil _ _, hturned, by grind⟩

/-! ## Rounds -/

/-- The epsilon transitions that leave a state are those to its targets. -/
theorem mem_epsilonsOf {t : Transition σ} :
    t ∈ A.epsilonsOf q ↔ t ∈ A.transitions ∧ t.isEpsilon = true ∧ t.source = q := by
  obtain ⟨source, label, target⟩ := t
  simp only [epsilonsOf, Finset.mem_map, FiniteSet.mem_toFinset, mem_targets]
  constructor
  · rintro ⟨r, hr, h⟩
    obtain ⟨rfl, rfl, rfl⟩ := Transition.mk.inj h
    exact ⟨hr, rfl, rfl⟩
  · rintro ⟨ht, hlabel, rfl⟩
    obtain rfl : label = .epsilon := of_decide_eq_true hlabel
    exact ⟨target, ht, rfl⟩

/-- Keeping one more state adds the epsilon transitions that leave it. -/
theorem card_epsilonsFrom_insert (hq : q ∉ X) : (A.epsilonsFrom (X.insert q)).card =
    (A.epsilonsFrom X).card + (A.targets q .epsilon).size := by
  -- The transitions of the new state have another source than the others.
  have hdisjoint : Disjoint (A.epsilonsFrom X) (A.epsilonsOf q) := by
    refine Finset.disjoint_left.2 fun t ht htq => hq ?_
    rw [← (mem_epsilonsOf.1 htq).2.2]
    exact (Finset.mem_filter.1 ht).2.2
  have hunion : A.epsilonsFrom (X.insert q) =
      (A.epsilonsFrom X).disjUnion (A.epsilonsOf q) hdisjoint := by
    ext t
    rw [Finset.mem_disjUnion, mem_epsilonsOf]
    simp only [epsilonsFrom, Finset.mem_filter, FiniteSet.mem_toFinset, FiniteSet.mem_insert_iff]
    grind
  calc (A.epsilonsFrom (X.insert q)).card
    _ = (A.epsilonsFrom X).card + (A.epsilonsOf q).card := by rw [hunion, Finset.card_disjUnion]
    _ = (A.epsilonsFrom X).card + (A.targets q .epsilon).size := by
      rw [epsilonsOf, Finset.card_map, FiniteSet.card_toFinset]

/-- What is known of the worklist after some rounds of collecting from a state. -/
structure Gathers (A : Automaton σ) (q : σ) (m : ℕ) (w : Worklist σ) : Prop where
  /-- What is on the stack or kept is reached from the state. -/
  reached : ∀ r, r ∈ w.stack ∨ r ∈ w.kept → r ∈ A.epsilonClosure q
  /-- The targets of the state are on the stack or kept. -/
  seeds : ∀ r ∈ A.targets q .epsilon, r ∈ w.stack ∨ r ∈ w.kept
  /-- The targets of a kept state are on the stack or kept. -/
  targets : ∀ p ∈ w.kept, ∀ r ∈ A.targets p .epsilon, r ∈ w.stack ∨ r ∈ w.kept
  /-- A state that has been put on the stack is still there, or a round has taken it off. -/
  length_add : w.stack.length + m = A.rounds q w.kept

omit [LawfulEqOrd σ] in
/-- Nothing is kept at first. -/
theorem epsilonsFrom_empty : A.epsilonsFrom ∅ = ∅ :=
  Finset.filter_false_of_mem fun _ _ h => ExtTreeSet.not_mem_empty h.2

/-- At first the targets of the state are on the stack. -/
theorem gathers_seeded (A : Automaton σ) (q : σ) : A.Gathers q 0 (A.seeded q) where
  reached r hr := by
    simp only [seeded, List.mem_reverse, ExtTreeSet.mem_toList, ExtTreeSet.not_mem_empty,
      or_false] at hr
    exact mem_epsilonClosure.2 ⟨r, hr, .nil r⟩
  seeds r hr := .inl (List.mem_reverse.2 (ExtTreeSet.mem_toList.2 hr))
  targets p hp := absurd hp ExtTreeSet.not_mem_empty
  length_add := by
    rw [seeded, rounds, epsilonsFrom_empty, List.length_reverse, ExtTreeSet.length_toList]
    rfl

/-- A round keeps what is known, and takes one state off. -/
theorem Gathers.lookAtTop {stack : List σ} {kept : FiniteSet σ}
    (h : A.Gathers q m ⟨p :: stack, kept⟩) :
    A.Gathers q (m + 1) (A.lookAtTop ⟨p :: stack, kept⟩) := by
  have hlength : stack.length + 1 + m = A.rounds q kept := h.length_add
  by_cases hp : p ∈ kept
  · -- The state is kept already, so it is not missed on the stack.
    have hstill (r : σ) : r ∈ p :: stack ∨ r ∈ kept → r ∈ stack ∨ r ∈ kept := by grind
    rw [Automaton.lookAtTop, if_pos hp]
    exact
      { reached := fun r hr => h.reached r (hr.imp_left (.tail p))
        seeds := fun r hr => hstill r (h.seeds r hr)
        targets := fun p' hp' r hr => hstill r (h.targets p' hp' r hr)
        length_add := by
          show stack.length + (m + 1) = A.rounds q kept
          omega }
  · -- The state moves from the stack to the kept ones, and its targets join the stack.
    let pushed := (A.targets p .epsilon).toList.reverse ++ stack
    have hpushed (r : σ) : r ∈ pushed ↔ r ∈ A.targets p .epsilon ∨ r ∈ stack := by
      simp [pushed]
    have hstill (r : σ) : r ∈ p :: stack ∨ r ∈ kept → r ∈ pushed ∨ r ∈ kept.insert p := by
      rw [hpushed, FiniteSet.mem_insert_iff, List.mem_cons]
      tauto
    have hpclosure : p ∈ A.epsilonClosure q := h.reached p (.inl (.head _))
    rw [Automaton.lookAtTop, if_neg hp]
    refine
      { reached := fun r hr => ?_
        seeds := fun r hr => hstill r (h.seeds r hr)
        targets := fun p' hp' r hr => ?_
        length_add := ?_ }
    · obtain hr | hr := hr
      · obtain hr | hr := (hpushed r).1 hr
        · exact mem_epsilonClosure_of_mem_targets hpclosure hr
        · exact h.reached r (.inl (.tail p hr))
      · obtain rfl | hr := FiniteSet.mem_insert_iff.1 hr
        · exact hpclosure
        · exact h.reached r (.inr hr)
    · obtain rfl | hp' := FiniteSet.mem_insert_iff.1 hp'
      · exact .inl ((hpushed r).2 (.inl hr))
      · exact hstill r (h.targets p' hp' r hr)
    · show pushed.length + (m + 1) = A.rounds q (kept.insert p)
      rw [rounds, card_epsilonsFrom_insert hp, List.length_append, List.length_reverse,
        ExtTreeSet.length_toList]
      rw [rounds] at hlength
      omega

/-- When the stack is empty, the closure is kept. -/
theorem Gathers.eq_epsilonClosure (h : A.Gathers q m ⟨[], X⟩) : X = A.epsilonClosure q := by
  have hkept {r : σ} (hr : r ∈ [] ∨ r ∈ X) : r ∈ X := hr.resolve_left List.not_mem_nil
  refine ExtTreeSet.ext_mem fun r => ⟨fun hr => h.reached r (.inr hr), fun hr => ?_⟩
  obtain ⟨p, hp, hpr⟩ := mem_epsilonClosure.1 hr
  -- From the targets of the state, which are kept, epsilon transitions do not lead out.
  induction Path.nil_iff.1 hpr with
  | refl => exact hkept (h.seeds p hp)
  | tail hpp' ht ih =>
    have hleads := Path.nil_iff.2 hpp'
    have hbefore := ih (mem_epsilonClosure.2 ⟨p, hp, hleads⟩) hleads
    exact hkept (h.targets _ hbefore _ (mem_targets.2 ht))

omit [LawfulEqOrd σ] in
/-- The rounds for any set are bounded by the number of transitions. -/
theorem rounds_le (A : Automaton σ) (q : σ) (X : FiniteSet σ) :
    A.rounds q X ≤ (A.targets q .epsilon).size + A.transitions.size := by
  rw [rounds, ← FiniteSet.card_toFinset A.transitions]
  exact Nat.add_le_add_left (Finset.card_filter_le _ _) _

/-- Whatever has been gathered, the stack runs empty after some more rounds, and then the closure is
kept. -/
theorem Gathers.exists_iterate (h : A.Gathers q m w) :
    ∃ n, m + n = A.rounds q (A.epsilonClosure q) ∧
      (∀ k < n, (A.lookAtTop^[k] w).stack ≠ []) ∧
      A.lookAtTop^[n] w = ⟨[], A.epsilonClosure q⟩ := by
  -- The induction is on a bound for the states that can still be taken off.
  obtain ⟨left, hleft⟩ : ∃ left, (A.targets q .epsilon).size + A.transitions.size < m + left :=
    ⟨(A.targets q .epsilon).size + A.transitions.size + 1, by omega⟩
  induction left generalizing m w with
  | zero =>
    have hlength := h.length_add
    have hle := A.rounds_le q w.kept
    omega
  | succ left ih =>
    obtain ⟨_ | ⟨p, stack⟩, kept⟩ := w
    · -- Nothing is left on the stack, and every state that was put there has been taken off.
      have hkept : kept = A.epsilonClosure q := h.eq_epsilonClosure
      have hlength : 0 + m = A.rounds q kept := h.length_add
      subst hkept
      exact ⟨0, by omega, fun k hk => absurd hk (Nat.not_lt_zero k), rfl⟩
    · -- One round is made, and the others are those of the worklist that it leaves.
      obtain ⟨n, hn, hstack, hfinal⟩ := ih h.lookAtTop (by omega)
      refine ⟨n + 1, by omega, fun k hk => ?_, hfinal⟩
      cases k with
      | zero => exact List.cons_ne_nil p stack
      | succ k => exact hstack k (by omega)

/-! ## Main result -/

/-- Collecting from a state comes to an end, with the epsilon closure of the state, which holds what
is reached by one epsilon transition or more, and the state itself only if it is on a cycle. -/
theorem isEpsilonClosure_epsilonClosure (A : Automaton σ) (q : σ) :
    A.IsEpsilonClosure q (A.epsilonClosure q) := by
  obtain ⟨n, hn, hstack, hfinal⟩ := (A.gathers_seeded q).exists_iterate
  obtain rfl : n = A.rounds q (A.epsilonClosure q) := by omega
  exact
    { stack_ne_nil := hstack
      iterate_eq := hfinal
      mem_iff := fun r => mem_epsilonClosure_iff_exists_walk
      self_mem_iff := self_mem_epsilonClosure_iff }

/-- An automaton of epsilon transitions, in which two states reach each other, one of them has a
loop, and a third one leads to both. -/
def tangledAutomaton : Automaton String :=
  empty.addTransitions [⟨"p", .epsilon, "q"⟩, ⟨"p", .epsilon, "r"⟩, ⟨"q", .epsilon, "r"⟩,
    ⟨"r", .epsilon, "q"⟩, ⟨"r", .epsilon, "r"⟩]

/-- Five states are taken off the stack before it is empty, `q` and `r` more than once. These two
lie on cycles and `p` does not. From a state that the automaton does not know nothing is
collected. -/
theorem isEpsilonClosure_tangledAutomaton :
    tangledAutomaton.IsEpsilonClosure "p" (tangledAutomaton.epsilonClosure "p") ∧
      ((tangledAutomaton.epsilonClosure "p").toList = ["q", "r"] ∧
        tangledAutomaton.lookAtTop^[5] (tangledAutomaton.seeded "p") =
          ⟨[], tangledAutomaton.epsilonClosure "p"⟩) ∧
      (tangledAutomaton.OnEpsilonCycle "r" ∧ ¬ tangledAutomaton.OnEpsilonCycle "p") ∧
      tangledAutomaton.lookAtTop^[0] (tangledAutomaton.seeded "z") = ⟨[], ∅⟩ := by
  have hp := isEpsilonClosure_epsilonClosure tangledAutomaton "p"
  have hr := isEpsilonClosure_epsilonClosure tangledAutomaton "r"
  have hz := isEpsilonClosure_epsilonClosure tangledAutomaton "z"
  have hrounds : tangledAutomaton.rounds "p" (tangledAutomaton.epsilonClosure "p") = 5 ∧
      tangledAutomaton.rounds "z" (tangledAutomaton.epsilonClosure "z") = 0 := by decide +kernel
  have hmembers : (tangledAutomaton.epsilonClosure "p").toList = ["q", "r"] ∧
      "p" ∉ tangledAutomaton.epsilonClosure "p" ∧ "r" ∈ tangledAutomaton.epsilonClosure "r" ∧
      tangledAutomaton.epsilonClosure "z" = ∅ := by decide +kernel
  obtain ⟨hlist, hself, hcycle, hunknown⟩ := hmembers
  refine ⟨hp, ⟨hlist, ?_⟩, ⟨hr.self_mem_iff.1 hcycle, mt hp.self_mem_iff.2 hself⟩, ?_⟩
  · rw [← hrounds.1]
    exact hp.iterate_eq
  · rw [← hrounds.2, hz.iterate_eq, hunknown]

end Automaton

end FiniteAutomata
