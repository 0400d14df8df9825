import FiniteAutomata.Automaton.Map
import FiniteAutomata.Namer
import FiniteAutomata.Search

/-!
# Canonical names

Renaming numbers the states in an order that depends on the shape of the automaton rather than on
its names: breadth first from the least start state, label by label. Traps are numbered after all
other reachable states, and unreachable states last. Texts decide only where the shape leaves a
choice, among the targets of one label and among the unreachable states.
-/

namespace FiniteAutomata.Automaton

open Std Search

variable {σ : Type} [Ord σ] [TransOrd σ]

/-- The sets of targets of a state, in the order of their labels. -/
def targetSets (A : Automaton σ) (q : σ) : List (FiniteSet σ) := (A.successors.row q).values

/-- Whether a state is not final and has transitions, all of which come back to it. -/
def isTrap (A : Automaton σ) (q : σ) : Bool :=
  let targets := (A.targetSets q).flatMap ExtTreeSet.toList
  !A.finals.contains q && !targets.isEmpty && targets.all fun r => compare r q == .eq

variable [StateText σ]

/-- The order of states by their texts, and of states with one text by themselves. -/
def byName : σ → σ → Ordering := compareLex nameOrder compare

instance : TransCmp (byName : σ → σ → Ordering) := inferInstanceAs (TransCmp (compareLex _ _))

/-- The members of a set in the order of their texts. -/
def sortByName (states : FiniteSet σ) : List σ :=
  (ExtTreeSet.ofList states.toList byName).toList

/-- Sorting neither loses a state nor makes one up. -/
theorem mem_sortByName [LawfulEqOrd σ] {states : FiniteSet σ} {q : σ} :
    q ∈ sortByName states ↔ q ∈ states := by
  let _ : DecidableEq σ := fun q r => decidable_of_iff (compare q r = .eq) Std.compare_eq_iff_eq
  have : LawfulEqCmp (byName : σ → σ → Ordering) := ⟨fun {q r} h => by
    rw [byName, compareLex_eq_eq] at h
    exact LawfulEqOrd.eq_of_compare h.2⟩
  rw [sortByName, ExtTreeSet.mem_toList, ExtTreeSet.mem_ofList, List.contains_iff_mem,
    ExtTreeSet.mem_toList]

/-- The targets of a state, label by label, those of one label by their texts. -/
def neighbours (A : Automaton σ) (q : σ) : List σ :=
  (A.targetSets q).flatMap sortByName

/-- The states reachable from a state over any labels, breadth first. -/
def reachable (A : Automaton σ) (start : σ) : List σ :=
  search .breadthFirst A.neighbours (A.states.size + 1) [start]

/-- All states in the order of their canonical names: reachable ones, reachable traps, and the
rest. The start is never put off as a trap. -/
def canonicalOrder (A : Automaton σ) (start : σ) : List σ :=
  let reached := A.reachable start
  let parts := reached.partition fun q => compare q start != .eq && A.isTrap q
  let seen : FiniteSet σ := ExtTreeSet.ofList reached
  parts.2 ++ parts.1 ++ sortByName (A.allStates.filter fun q => !seen.contains q)

/-- The canonical name of each state. -/
def canonicalNames (A : Automaton σ) (start : σ) (stem : Char) : ExtTreeMap σ String :=
  ExtTreeMap.ofList <| (A.canonicalOrder start).zipIdx.map fun (q, n) => (q, Namer.nameOf stem n)

/-- The automaton with its states renamed to the stem with 0, 1, 2 and so on in canonical order.
Without a start state, a transition or a final state the states keep their texts. -/
def renameCanonical (A : Automaton σ) (stem : Char) : Automaton String :=
  match A.startState? with
  | none => A.mapStates StateText.text
  | some start =>
    if A.transitions.isEmpty || A.finals.isEmpty then A.mapStates StateText.text
    else
      let names := A.canonicalNames start stem
      A.mapStates fun q => names.getD q (StateText.text q)

end FiniteAutomata.Automaton
