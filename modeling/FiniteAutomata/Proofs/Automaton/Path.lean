import FiniteAutomata.Automaton.Run
import FiniteAutomata.Proofs.FiniteSet
import FiniteAutomata.Proofs.Search
import Mathlib.Computability.Language
import Mathlib.Order.CompletePartialOrder

/-!
# Paths through an automaton

A path through a set of transitions spells the symbols that its transitions read; epsilon
transitions may stand anywhere on it. Paths say what closures and moves compute: `mem_close` and
`mem_move` describe the states that they hold by the empty word and by a word of one symbol, and
`mem_foldl_move` describes the states that repeated moves hold by a whole word.

The words of paths are bounded from both sides in the algebra of languages. The transitions respect
what their paths spell (`respects_pathWords`), and whoever guesses for each state a language so that
all transitions respect the guess, and that the goal has the empty word, has an upper bound for each
state (`pathWords_le_of_respects`).
-/

namespace FiniteAutomata

open Std Search

/-- A path from a state to a state that spells a word. -/
inductive Path {σ : Type} (T : Set (Transition σ)) : σ → List Char → σ → Prop where
  /-- The path that stays where it is. -/
  | nil (q : σ) : Path T q [] q
  /-- A path that starts by reading nothing. -/
  | epsilon {q r s : σ} {w : List Char} (t : ⟨q, .epsilon, r⟩ ∈ T) (rest : Path T r w s) :
      Path T q w s
  /-- A path that starts by reading a symbol. -/
  | symbol {q r s : σ} {c : Char} {w : List Char} (t : ⟨q, .symbol c, r⟩ ∈ T)
      (rest : Path T r w s) : Path T q (c :: w) s

namespace Path

variable {σ : Type} {T T' : Set (Transition σ)} {p q r s : σ} {c : Char} {u v w : List Char}

/-- Paths are put one after the other. -/
theorem trans (h : Path T q u r) (h' : Path T r v s) : Path T q (u ++ v) s := by
  induction h with
  | nil => exact h'
  | epsilon t _ ih => exact .epsilon t (ih h')
  | symbol t _ ih => exact .symbol t (ih h')

/-- A path stays one when transitions are added. -/
theorem mono (hT : T ⊆ T') (h : Path T q w r) : Path T' q w r := by
  induction h with
  | nil q => exact .nil q
  | epsilon t _ ih => exact .epsilon (hT t) ih
  | symbol t _ ih => exact .symbol (hT t) ih

/-- A path that spells nothing takes epsilon transitions only. -/
theorem nil_iff :
    Path T q [] r ↔ Relation.ReflTransGen (fun p p' => ⟨p, .epsilon, p'⟩ ∈ T) q r := by
  constructor
  · generalize hw : ([] : List Char) = w
    intro h
    induction h with
    | nil => exact .refl
    | epsilon t _ ih => exact (ih hw).head t
    | symbol => cases hw
  · intro h
    induction h using Relation.ReflTransGen.head_induction_on with
    | refl => exact .nil _
    | head t _ ih => exact .epsilon t ih

/-- A path that spells a non-empty word reads its first symbol after some epsilon transitions. -/
theorem cons_iff : Path T q (c :: w) s ↔
    ∃ p r, Path T q [] p ∧ ⟨p, .symbol c, r⟩ ∈ T ∧ Path T r w s := by
  constructor
  · -- The epsilon transitions before the symbol are collected on the way to it.
    generalize hw : c :: w = w'
    intro h
    induction h with
    | nil => cases hw
    | epsilon t _ ih =>
      obtain ⟨p, r, hp, hr, hs⟩ := ih hw
      exact ⟨p, r, .epsilon t hp, hr, hs⟩
    | symbol t rest =>
      obtain ⟨rfl, rfl⟩ := List.cons.inj hw
      exact ⟨_, _, .nil _, t, rest⟩
  · rintro ⟨p, r, hp, hr, hs⟩
    exact hp.trans (.symbol hr hs)

/-- A path that spells two words in sequence passes a state between them. -/
theorem append_iff : Path T q (u ++ v) s ↔ ∃ r, Path T q u r ∧ Path T r v s := by
  constructor
  · intro h
    induction u generalizing q with
    | nil => exact ⟨q, .nil q, h⟩
    | cons c u ih =>
      obtain ⟨p, r, hp, hr, hs⟩ := cons_iff.1 h
      obtain ⟨m, hm, hms⟩ := ih hs
      exact ⟨m, cons_iff.2 ⟨p, r, hp, hr, hm⟩, hms⟩
  · rintro ⟨r, hr, hs⟩
    exact hr.trans hs

/-- Without epsilon transitions, a path that spells nothing is empty. -/
theorem nil_iff_of_not_isEpsilon (h : ∀ t ∈ T, t.isEpsilon = false) : Path T q [] r ↔ q = r := by
  constructor
  · intro hp
    cases hp with
    | nil => rfl
    | epsilon t _ => exact Bool.noConfusion (h _ t)
  · rintro rfl
    exact .nil q

/-- Without epsilon transitions, a path reads the first symbol of its word at once. -/
theorem cons_iff_of_not_isEpsilon (h : ∀ t ∈ T, t.isEpsilon = false) :
    Path T q (c :: w) s ↔ ∃ r, ⟨q, .symbol c, r⟩ ∈ T ∧ Path T r w s := by
  rw [cons_iff]
  constructor
  · rintro ⟨p, r, hp, hr, hs⟩
    rw [(nil_iff_of_not_isEpsilon h).1 hp]
    exact ⟨r, hr, hs⟩
  · rintro ⟨r, hr, hs⟩
    exact ⟨q, r, .nil q, hr, hs⟩

/-- A path from a state whose transitions come back to it stays there. -/
theorem eq_of_forall_target_eq (h : Path T q w r) (hq : ∀ t ∈ T, t.source = q → t.target = q) :
    q = r := by
  induction h with
  | nil => rfl
  | epsilon t _ ih | symbol t _ ih =>
    have hback := hq _ t rfl
    dsimp only at hback
    subst hback
    exact ih hq

/-- Each symbol of the word is read by a transition. -/
theorem exists_mem_of_mem (h : Path T q w r) (hc : c ∈ w) : ∃ p p', ⟨p, .symbol c, p'⟩ ∈ T := by
  induction h with
  | nil => exact absurd hc List.not_mem_nil
  | epsilon _ _ ih => exact ih hc
  | symbol t _ ih =>
    rcases List.mem_cons.1 hc with rfl | hc
    · exact ⟨_, _, t⟩
    · exact ih hc

end Path

/-! ## Languages of paths -/

/-- The words that a label reads. -/
def Label.language : Label → Language Char
  | .epsilon => 1
  | .symbol c => {[c]}

/-- A transition respects languages at the states if its label read before the language of its
target stays within the language of its source. -/
def Transition.Respects {σ : Type} (L : σ → Language Char) (t : Transition σ) : Prop :=
  t.label.language * L t.target ≤ L t.source

/-- The words that the paths from a state to a state spell. -/
def pathWords {σ : Type} (T : Set (Transition σ)) (q r : σ) : Language Char := {w | Path T q w r}

section Words

variable {σ : Type} {T T' : Set (Transition σ)} {q r s : σ}

/-- The empty path spells the empty word. -/
theorem one_le_pathWords : 1 ≤ pathWords T q q := by
  rintro w rfl
  exact .nil q

/-- Words of paths that meet are put one after the other. -/
theorem pathWords_mul_le : pathWords T q r * pathWords T r s ≤ pathWords T q s := by
  intro w hw
  obtain ⟨u, hu, v, hv, rfl⟩ := Language.mem_mul.1 hw
  exact Path.trans hu hv

/-- More transitions spell more words. -/
theorem pathWords_mono (hT : T ⊆ T') : pathWords T q r ≤ pathWords T' q r :=
  fun _ h => Path.mono hT h

/-- A transition respects what its paths spell. -/
theorem respects_pathWords {t : Transition σ} (ht : t ∈ T) :
    t.Respects fun q => pathWords T q s := by
  obtain ⟨p, label, r⟩ := t
  intro w hw
  obtain ⟨u, hu, v, hv, rfl⟩ := Language.mem_mul.1 hw
  cases label with
  | epsilon =>
    obtain rfl : u = [] := hu
    exact .epsilon ht hv
  | symbol c =>
    obtain rfl : u = [c] := hu
    exact .symbol ht hv

/-- Languages that all transitions respect, with the empty word at the goal, bound what the paths to
the goal spell. -/
theorem pathWords_le_of_respects {L : σ → Language Char} (h : ∀ t ∈ T, t.Respects L)
    (hs : 1 ≤ L s) : pathWords T q s ≤ L q := by
  intro w hw
  induction hw with
  | nil => exact hs rfl
  | epsilon t _ ih => exact h _ t (Language.mem_mul.2 ⟨[], rfl, _, ih hs, rfl⟩)
  | symbol t _ ih => exact h _ t (Language.mem_mul.2 ⟨[_], rfl, _, ih hs, rfl⟩)

end Words

namespace Automaton

variable {σ : Type} [Ord σ] [TransOrd σ]

/-- A word leads from a state to a state when a path of the automaton spells it. -/
abbrev Leads (A : Automaton σ) : σ → List Char → σ → Prop := Path {t | t ∈ A.transitions}

/-- The words that lead from a start state to a final state. -/
def language (A : Automaton σ) : Language Char :=
  {w | ∃ q ∈ A.starts, ∃ r ∈ A.finals, A.Leads q w r}

variable {A : Automaton σ}

/-- With one start state and one final state, the words are those that lead from the one to the
other. -/
theorem mem_language_iff_leads {s a : σ} (hs : ∀ q, q ∈ A.starts ↔ q = s)
    (ha : ∀ q, q ∈ A.finals ↔ q = a) {w : List Char} : w ∈ A.language ↔ A.Leads s w a := by
  constructor
  · rintro ⟨q, hq, r, hr, h⟩
    rwa [(hs q).1 hq, (ha r).1 hr] at h
  · intro h
    exact ⟨s, (hs s).2 rfl, a, (ha a).2 rfl, h⟩

/-- A run that does not branch tells whether the word is accepted. -/
theorem accepts_eq_of_accept_eq_ok {w : List Char} {b : Bool} (h : A.accept w = .ok b) :
    A.accepts w = b := by
  rw [accepts, h]

/-- A word leads from a state to itself, or to the end of a transition. -/
theorem eq_or_mem_states_of_leads {q r : σ} {w : List Char} (h : A.Leads q w r) :
    q = r ∨ r ∈ A.states := by
  induction h with
  | nil => exact .inl rfl
  | epsilon t _ ih => exact .inr (ih.elim (fun h => h ▸ mem_states.2 ⟨_, t, .inr rfl⟩) id)
  | symbol t _ ih => exact .inr (ih.elim (fun h => h ▸ mem_states.2 ⟨_, t, .inr rfl⟩) id)

variable [LawfulEqOrd σ]

/-- The states of the automaton and the members of a set enclose the search for the closure of the
set. -/
theorem encloses_close (A : Automaton σ) (X : FiniteSet σ) :
    Encloses (fun q => (A.targets q .epsilon).toList) (A.states ∪ X).toFinset
      (A.states.size + X.size) X.toList where
  seeds_mem q hq := FiniteSet.mem_toFinset.2
    (ExtTreeSet.mem_union_iff.2 (.inr (ExtTreeSet.mem_toList.1 hq)))
  neighbours_mem q _ r hr := by
    have ht : (⟨q, .epsilon, r⟩ : Transition σ) ∈ A.transitions :=
      mem_targets.1 (ExtTreeSet.mem_toList.1 hr)
    have : r ∈ A.states := mem_states.2 ⟨_, ht, .inr rfl⟩
    exact FiniteSet.mem_toFinset.2 (ExtTreeSet.mem_union_iff.2 (.inl this))
  card_le := by
    rw [FiniteSet.card_toFinset]
    exact ExtTreeSet.size_union_le_size_add_size

/-- The closure of a set holds the states that the empty word leads to. -/
theorem mem_close {X : FiniteSet σ} {r : σ} :
    r ∈ A.close X ↔ ∃ q ∈ X, A.Leads q [] r := by
  rw [close, FiniteSet.mem_ofList_iff, mem_search (A.encloses_close X)]
  simp only [ExtTreeSet.mem_toList, Reaches, mem_targets, Path.nil_iff, Set.mem_ofPred_eq]

/-- A closure is closed: the empty word does not lead out of it. -/
theorem mem_close_of_leads {X : FiniteSet σ} {q r : σ} (hq : q ∈ A.close X)
    (h : A.Leads q [] r) : r ∈ A.close X := by
  obtain ⟨p, hp, hpq⟩ := mem_close.1 hq
  exact mem_close.2 ⟨p, hp, hpq.trans h⟩

/-- The epsilon closure of a state holds what the empty word leads to from its targets. -/
theorem mem_epsilonClosure {q r : σ} :
    r ∈ A.epsilonClosure q ↔ ∃ p ∈ A.targets q .epsilon, A.Leads p [] r := mem_close

/-- A move on a symbol leads to the states that the symbol as a word leads to. -/
theorem mem_move {X : FiniteSet σ} {c : Char} {r : σ} :
    r ∈ A.move X c ↔ ∃ q ∈ X, A.Leads q [c] r := by
  simp only [move, mem_close, FiniteSet.mem_bind, mem_targets, Path.cons_iff, Set.mem_ofPred_eq]
  constructor
  · rintro ⟨p', ⟨p, ⟨q, hq, hp⟩, ht⟩, hr⟩
    exact ⟨q, hq, p, p', hp, ht, hr⟩
  · rintro ⟨q, hq, p, p', hp, ht, hr⟩
    exact ⟨p', ⟨p, ⟨q, hq, hp⟩, ht⟩, hr⟩

/-- A move from one state leads to the states that the symbol as a word leads to. -/
theorem mem_moveFrom {q r : σ} {c : Char} : r ∈ A.moveFrom q c ↔ A.Leads q [c] r := by
  simp [moveFrom, mem_move]

/-- Without epsilon transitions, reading a symbol is following one transition. -/
theorem mem_moveFrom_of_not_isEpsilon {q r : σ} {c : Char}
    (h : ∀ t ∈ A.transitions, t.isEpsilon = false) :
    r ∈ A.moveFrom q c ↔ (⟨q, .symbol c, r⟩ : Transition σ) ∈ A.transitions := by
  rw [mem_moveFrom]
  refine (Path.cons_iff_of_not_isEpsilon h).trans ⟨?_, ?_⟩
  · rintro ⟨p, ht, hp⟩
    rw [← (Path.nil_iff_of_not_isEpsilon h).1 hp]
    exact ht
  · intro ht
    exact ⟨r, ht, .nil r⟩

/-- Repeated moves from a closed set lead to the states that the word of their symbols leads to. -/
theorem mem_foldl_move {X : FiniteSet σ} {w : List Char} {r : σ}
    (hX : ∀ q ∈ X, ∀ p, A.Leads q [] p → p ∈ X) :
    r ∈ w.foldl A.move X ↔ ∃ q ∈ X, A.Leads q w r := by
  induction w generalizing X with
  | nil => exact ⟨fun h => ⟨r, h, .nil r⟩, fun ⟨q, hq, h⟩ => hX q hq r h⟩
  | cons c w ih =>
    -- A move ends in a closure, so the states that it leads to are closed as those before it.
    have hmove : ∀ q ∈ A.move X c, ∀ p, A.Leads q [] p → p ∈ A.move X c :=
      fun q hq p hqp => mem_close_of_leads hq hqp
    rw [List.foldl_cons, ih hmove]
    constructor
    · rintro ⟨p, hp, hpr⟩
      obtain ⟨q, hq, hqp⟩ := mem_move.1 hp
      exact ⟨q, hq, hqp.trans hpr⟩
    · -- The path is cut behind the first symbol.
      rintro ⟨q, hq, hqr⟩
      obtain ⟨p, hqp, hpr⟩ := Path.append_iff (u := [c]).1 hqr
      exact ⟨p, mem_move.2 ⟨q, hq, hqp⟩, hpr⟩

/-- Repeated moves from the start set lead to the states that the word leads to from the start
states. -/
theorem mem_foldl_move_startSet {w : List Char} {r : σ} :
    r ∈ w.foldl A.move (A.close A.starts) ↔ ∃ q ∈ A.starts, A.Leads q w r := by
  rw [mem_foldl_move fun q hq p hqp => mem_close_of_leads hq hqp]
  constructor
  · rintro ⟨p, hp, hpr⟩
    obtain ⟨q, hq, hqp⟩ := mem_close.1 hp
    exact ⟨q, hq, hqp.trans hpr⟩
  · rintro ⟨q, hq, hqr⟩
    exact ⟨q, mem_close.2 ⟨q, hq, .nil q⟩, hqr⟩

end Automaton

end FiniteAutomata
