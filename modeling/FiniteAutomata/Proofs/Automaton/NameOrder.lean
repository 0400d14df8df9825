import FiniteAutomata.Proofs.Automaton.Renaming

/-!
# The order of names

Sorting states by their texts, shorter ones first, puts the names of a namer in the order in which
it handed them out (`inOrder`). The order of texts by their characters alone does not, since it puts
`q10` before `q9`. But this is the order in which a run looks for the least start state, and in it
the first name of a new namer precedes all others. So canonical renaming, which gives that name to
the start state, keeps it the start state (`names_in_order`).
-/

namespace FiniteAutomata

open Std Automaton

namespace Namer

/-- Sorted by their length and then by their characters, the names of a namer stand in the order in
which they are handed out. -/
structure InOrder (namer : Namer) : Prop where
  /-- A name precedes exactly the names that are handed out after it. -/
  nameOrder_lt_iff : ∀ i j, nameOrder (namer.advance i).name (namer.advance j).name = .lt ↔ i < j
  /-- No name is handed out twice. -/
  injective_name : Function.Injective fun i => (namer.advance i).name
  /-- Sorting the set of the names that are handed out gives them back in turn. -/
  sortByName_eq : ∀ count, sortByName (ExtTreeSet.ofList (namer.handOut count)) =
    namer.handOut count

/-- Names that are handed out in turn are sorted. -/
theorem pairwise_handOut (namer : Namer) (count : ℕ) :
    (namer.handOut count).Pairwise fun s t => byName s t = .lt := by
  rw [handOut_eq_map, List.pairwise_map]
  exact List.pairwise_lt_range.imp fun h => byName_nameOf namer.stem (Nat.add_lt_add_left h _)

/-- The names of a namer are in order. -/
theorem inOrder (namer : Namer) : namer.InOrder where
  nameOrder_lt_iff _ _ := textOrder_nameOf_eq_lt_iff.trans Nat.add_lt_add_iff_left
  injective_name _ _ h := Nat.add_left_cancel (nameOf_inj.1 h)
  sortByName_eq count := by
    have hasymm := FiniteSet.asymm_lt (byName : String → String → Ordering)
    refine (pairwise_sortByName _).eq_of_mem_iff (namer.pairwise_handOut count) fun name => ?_
    rw [mem_sortByName, FiniteSet.mem_ofList_iff]

end Namer

variable {σ : Type} [Ord σ] [TransOrd σ] [LawfulEqOrd σ] [StateText σ]

/-- The names of a namer sort in the order in which they are handed out. The first name of a new
namer precedes all later ones by its characters alone, so the start state of an automaton, which
canonical renaming gives that name, is the start state of the renamed automaton. -/
theorem names_in_order (namer : Namer) :
    namer.InOrder ∧
      (namer.next = 0 →
        (∀ i, 0 < i → namer.name < (namer.advance i).name) ∧
        ∀ A : Automaton σ, A.Nameable → ∃ start f, A.startState? = some start ∧
          A.renameCanonical namer.stem = A.mapStates f ∧ f start = namer.name ∧
          (A.renameCanonical namer.stem).startState? = some namer.name) := by
  refine ⟨namer.inOrder, fun hnew => ?_⟩
  have hfirst : namer.name = Namer.nameOf namer.stem 0 := congrArg (Namer.nameOf namer.stem) hnew
  rw [hfirst]
  constructor
  · intro i hi
    have hpos : 0 < namer.next + i := Nat.add_pos_right namer.next hi
    exact Namer.nameOf_lt_nameOf namer.stem (Namer.toDigits_zero_lt hpos)
  · intro A hA
    obtain ⟨start, hstart⟩ := hA.exists_startState?
    have hrename := hA.renameCanonical_eq hstart namer.stem
    refine ⟨start, A.canonicalName start namer.stem, hstart, hrename,
      A.canonicalName_start start namer.stem, ?_⟩
    rw [hrename]
    exact startState?_mapStates_canonicalName hstart

/-- With the digit `1` for a stem, the tenth and the eleventh name are `19` and `110`. They sort in
this order, although `110` precedes `19` by its characters, and the start state of the mixed
automaton keeps its place as `10`. -/
theorem names_in_order_digitStem :
    (((⟨'1', 0⟩ : Namer).advance 9).name = "19" ∧ ((⟨'1', 0⟩ : Namer).advance 10).name = "110") ∧
      (nameOrder "19" "110" = .lt ∧ "110" < "19") ∧ ("10" < "19" ∧ "10" < "110") ∧
      mixedAutomaton.Nameable ∧ ∃ start f, mixedAutomaton.startState? = some start ∧
        mixedAutomaton.renameCanonical '1' = mixedAutomaton.mapStates f ∧ f start = "10" ∧
        (mixedAutomaton.renameCanonical '1').startState? = some "10" := by
  obtain ⟨hinOrder, hnew⟩ := names_in_order (σ := Int) ⟨'1', 0⟩
  obtain ⟨hfirst, hstart⟩ := hnew rfl
  have hmixed : mixedAutomaton.Nameable :=
    ⟨by decide +kernel, by decide +kernel, by decide +kernel⟩
  exact ⟨⟨rfl, rfl⟩, ⟨(hinOrder.nameOrder_lt_iff 9 10).2 (by decide), by decide⟩,
    ⟨hfirst 9 (by decide), hfirst 10 (by decide)⟩, hmixed, hstart mixedAutomaton hmixed⟩

end FiniteAutomata
