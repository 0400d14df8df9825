import FiniteAutomata.Proofs.Automaton.Expansion
import FiniteAutomata.Proofs.Automaton.Map
import Mathlib.Algebra.Order.BigOperators.Group.Finset

/-!
# How many sets determinization finds

A set that a move on a symbol gives is the closure of the states that transitions on that symbol
lead to from the set before. Apart from the start set, the sets that are found are therefore the
closures of some states that transitions on one symbol enter, and each symbol has as many of them at
most as there are non-empty sets of such states (`length_subsets_le_sum`). Where few transitions read
a symbol, however many read nothing, these are few.
-/

namespace FiniteAutomata

open Std

/-- A set whose members are all in a list has no more members than the list. -/
theorem FiniteSet.size_le_length {α : Type} [Ord α] [TransOrd α] [LawfulEqOrd α] {X : FiniteSet α}
    {xs : List α} (h : ∀ a ∈ X, a ∈ xs) : X.size ≤ xs.length := by
  rw [← ExtTreeSet.length_toList]
  exact (List.subperm_of_subset (nodup_toList X) fun a ha =>
    h a (ExtTreeSet.mem_toList.1 ha)).length_le

namespace Automaton

variable {σ : Type} [Ord σ] [TransOrd σ]

/-- The states that transitions on a symbol lead to. -/
def entered (A : Automaton σ) (c : Char) : FiniteSet σ :=
  ExtTreeSet.ofList
    ((A.transitions.toList.filter fun t => t.label = .symbol c).map Transition.target)

variable [LawfulEqOrd σ] {A : Automaton σ} {X : FiniteSet σ} {c : Char}

/-- A state is entered on a symbol when a transition on the symbol leads to it. -/
theorem mem_entered {q : σ} :
    q ∈ A.entered c ↔ ∃ p, (⟨p, .symbol c, q⟩ : Transition σ) ∈ A.transitions := by
  rw [entered, FiniteSet.mem_ofList_iff, List.mem_map]
  simp only [List.mem_filter, ExtTreeSet.mem_toList, decide_eq_true_eq]
  constructor
  · rintro ⟨⟨p, _, q⟩, ⟨ht, rfl⟩, rfl⟩
    exact ⟨p, ht⟩
  · rintro ⟨p, ht⟩
    exact ⟨_, ⟨ht, rfl⟩, rfl⟩

/-- The closure of the empty set is empty. -/
theorem close_empty (A : Automaton σ) : A.close ∅ = ∅ := by
  refine ExtTreeSet.eq_empty_iff_forall_not_mem.2 fun r hr => ?_
  obtain ⟨q, hq, -⟩ := mem_close.1 hr
  exact ExtTreeSet.not_mem_empty hq

/-- A set other than the start set is found as the closure of some states that are entered on one
symbol. -/
theorem exists_close_eq_of_mem_subsets (hX : X ∈ A.subsets) (hne : X ≠ A.startSet) :
    ∃ c ∈ A.alphabet, ∃ Y ≠ ∅, (∀ q ∈ Y, q ∈ A.entered c) ∧ A.close Y = X := by
  obtain ⟨-, hreach⟩ := mem_subsets_iff.1 hX
  obtain rfl | ⟨Z, -, hZX⟩ := Relation.ReflTransGen.cases_tail hreach
  · exact absurd rfl hne
  · obtain ⟨⟨c, hc, rfl⟩, hmove⟩ := mem_moves.1 hZX
    refine ⟨c, hc, _, fun hempty => hmove ?_, fun q hq => ?_, rfl⟩
    · rw [move, hempty, close_empty]
    · obtain ⟨p, -, hp⟩ := FiniteSet.mem_bind.1 hq
      exact mem_entered.2 ⟨p, mem_targets.1 hp⟩

/-- The sets that are found are no more than the start set and, for each symbol, the non-empty sets
of states that are entered on it. -/
theorem length_subsets_le_sum (A : Automaton σ) :
    A.subsets.length ≤ 1 + ∑ c ∈ A.alphabet.toFinset, (2 ^ (A.entered c).size - 1) := by
  classical
  let found : Finset (FiniteSet σ) := ⟨A.subsets, A.nodup_subsets⟩
  let closures (c : Char) : Finset (FiniteSet σ) := ((A.entered c).subsets.erase ∅).image A.close
  have hfound : found ⊆ insert A.startSet (A.alphabet.toFinset.biUnion closures) := by
    intro X hX
    rw [Finset.mem_insert, Finset.mem_biUnion]
    refine or_iff_not_imp_left.2 fun hne => ?_
    obtain ⟨c, hc, Y, hY, hentered, rfl⟩ := exists_close_eq_of_mem_subsets hX hne
    refine ⟨c, FiniteSet.mem_toFinset.2 hc, Finset.mem_image_of_mem _ ?_⟩
    exact Finset.mem_erase.2 ⟨hY, FiniteSet.mem_subsets.2 hentered⟩
  have hclosures (c : Char) : (closures c).card ≤ 2 ^ (A.entered c).size - 1 :=
    Finset.card_image_le.trans (FiniteSet.card_erase_subsets _).le
  calc A.subsets.length
    _ ≤ (insert A.startSet (A.alphabet.toFinset.biUnion closures)).card := Finset.card_le_card hfound
    _ ≤ (A.alphabet.toFinset.biUnion closures).card + 1 := Finset.card_insert_le _ _
    _ ≤ ∑ c ∈ A.alphabet.toFinset, (closures c).card + 1 :=
      Nat.add_le_add_right Finset.card_biUnion_le 1
    _ ≤ ∑ c ∈ A.alphabet.toFinset, (2 ^ (A.entered c).size - 1) + 1 :=
      Nat.add_le_add_right (Finset.sum_le_sum fun c _ => hclosures c) 1
    _ = 1 + ∑ c ∈ A.alphabet.toFinset, (2 ^ (A.entered c).size - 1) := Nat.add_comm _ 1

/-- The determinized automaton has no more states besides the trap than sets are found. -/
theorem ncard_states_determinize_le [StateText σ] (A : Automaton σ) :
    {q | q ∈ A.determinize.stateSet ∧ q ≠ trapName}.ncard ≤ A.subsets.length := by
  have hnames : {q | q ∈ A.determinize.stateSet ∧ q ≠ trapName} ⊆
      ↑(A.subsets.map FiniteSet.name).toFinset := by
    rintro q ⟨hq, hne⟩
    obtain ⟨X, hX, rfl⟩ := exists_occurs_of_mem_allStates hq
    obtain rfl | hX := hX
    · exact absurd FiniteSet.stateName_empty hne
    · rw [FiniteSet.stateName_of_ne_empty (ne_empty_of_mem_subsets hX), Finset.mem_coe,
        List.mem_toFinset]
      exact List.mem_map_of_mem hX
  calc {q | q ∈ A.determinize.stateSet ∧ q ≠ trapName}.ncard
    _ ≤ (A.subsets.map FiniteSet.name).toFinset.card := by
      rw [← Set.ncard_coe_finset]
      exact Set.ncard_le_ncard hnames
    _ ≤ (A.subsets.map FiniteSet.name).length := List.toFinset_card_le _
    _ = A.subsets.length := List.length_map _

end Automaton

end FiniteAutomata
