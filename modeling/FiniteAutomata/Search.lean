import FiniteAutomata.FiniteSet

/-!
# Graph search

A search lists what can be reached from some seeds. It keeps a list of discoveries that are still
pending and the set of all that has been discovered so far; each round takes the first pending
element and adds its undiscovered neighbours. Where these join the pending ones makes the search
depth first or breadth first. Every element is pending once at most, so a bound on the number of
reachable elements bounds the rounds.
-/

namespace FiniteAutomata.Search

open Std

variable {α : Type}

/-- Where new discoveries join the pending ones. -/
inductive Discipline where
  /-- The latest discovery is taken next. -/
  | depthFirst
  /-- Discoveries are taken in the order in which they were made. -/
  | breadthFirst
  deriving DecidableEq

/-- The pending elements with some new discoveries, which are given in the order of discovery. -/
def Discipline.join : Discipline → List α → List α → List α
  | depthFirst, discoveries, pending => discoveries.reverse ++ pending
  | breadthFirst, discoveries, pending => pending ++ discoveries

/-- Joining neither loses an element nor makes one up. -/
theorem Discipline.mem_join {d : Discipline} {xs ys : List α} {a : α} :
    a ∈ d.join xs ys ↔ a ∈ xs ∨ a ∈ ys := by
  cases d <;> simp [join, or_comm]

variable [Ord α] [TransOrd α]

/-- The elements of a list that are not in the set, each once and in order, and the set with them
added. -/
def discover (seen : FiniteSet α) : List α → List α × FiniteSet α
  | [] => ([], seen)
  | a :: rest =>
    if a ∈ seen then discover seen rest
    else
      let found := discover (seen.insert a) rest
      (a :: found.1, found.2)

/-- The elements taken in a number of rounds, in order. -/
def visit (d : Discipline) (neighbours : α → List α) : Nat → List α → FiniteSet α → List α
  | 0, _, _ => []
  | _ + 1, [], _ => []
  | rounds + 1, a :: pending, seen =>
    let found := discover seen (neighbours a)
    a :: visit d neighbours rounds (d.join found.1 pending) found.2

/-- All that can be reached from the seeds, in the order in which the search takes it. The bound is
the number of reachable elements or more. -/
def search (d : Discipline) (neighbours : α → List α) (bound : Nat) (seeds : List α) : List α :=
  let found := discover ∅ seeds
  visit d neighbours bound (d.join found.1 []) found.2

section Lawful

variable [LawfulEqOrd α]

/-- After a discovery the set holds in addition the elements of the list. -/
theorem mem_discover_snd {seen : FiniteSet α} {xs : List α} {a : α} :
    a ∈ (discover seen xs).2 ↔ a ∈ seen ∨ a ∈ xs := by
  induction xs generalizing seen with
  | nil => simp [discover]
  | cons x rest ih =>
    by_cases h : x ∈ seen
    · rw [discover, if_pos h, ih, List.mem_cons]
      grind
    · rw [discover, if_neg h]
      simp only [ih, FiniteSet.mem_insert_iff, List.mem_cons]
      grind

/-- The discoveries are the elements of the list that were not in the set. -/
theorem mem_discover_fst {seen : FiniteSet α} {xs : List α} {a : α} :
    a ∈ (discover seen xs).1 ↔ a ∈ xs ∧ a ∉ seen := by
  induction xs generalizing seen with
  | nil => simp [discover]
  | cons x rest ih =>
    by_cases h : x ∈ seen
    · rw [discover, if_pos h, ih, List.mem_cons]
      grind
    · rw [discover, if_neg h]
      simp only [ih, FiniteSet.mem_insert_iff, List.mem_cons]
      grind

/-- No element is discovered twice. -/
theorem nodup_discover_fst {seen : FiniteSet α} {xs : List α} : (discover seen xs).1.Nodup := by
  induction xs generalizing seen with
  | nil => simp [discover]
  | cons x rest ih =>
    by_cases h : x ∈ seen
    · rw [discover, if_pos h]
      exact ih
    · rw [discover, if_neg h]
      simp only [List.nodup_cons, mem_discover_fst, FiniteSet.mem_insert_iff]
      exact ⟨by simp, ih⟩

end Lawful

end FiniteAutomata.Search
