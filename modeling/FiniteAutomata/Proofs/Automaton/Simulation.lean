import FiniteAutomata.Proofs.Automaton.Determinism
import Mathlib.Data.Set.Card

/-!
# What a run says of a nondeterministic automaton

A run keeps one state, and a word may lead to none or to many. The run goes wrong all the same only
where it says so: as long as the beginnings of the word lead to one state each, the run holds that
state, and the first beginning that does not ends the run (`isVerdictOn_accept`). If it leads
nowhere the word is refused, and if it leads to several states the run branches and counts them.

What carries the proof is that nothing is lost with the other states: when a beginning leads to one
state only, the rest of the word leads from this state wherever it leads to (`Steady.exists_holds`).
Before the first symbol a run holds the start state alone, even if epsilon transitions lead on from
there, so the empty word is judged by the start state.
-/

namespace FiniteAutomata.Automaton

open Std

variable {σ : Type} [Ord σ] [TransOrd σ]

/-- The states that a word leads to from a state. -/
def destinations (A : Automaton σ) (q : σ) (w : List Char) : Set σ := {r | A.Leads q w r}

/-- So many first symbols of a word, of which there is at least one, lead from a state to no state or
to several. -/
def Diverges (A : Automaton σ) (q : σ) (w : List Char) (k : ℕ) : Prop :=
  1 ≤ k ∧ k ≤ w.length ∧ ∀ r, A.destinations q (w.take k) ≠ {r}

/-- Each beginning of a word but the empty one leads from a state to one state only. -/
def Steady (A : Automaton σ) (q : σ) (w : List Char) : Prop := ∀ k, ¬ A.Diverges q w k

/-- A run from a state holds a state after a word: at first the one that it starts from, and later
the only one that the word leads to. -/
def Holds (A : Automaton σ) (q : σ) (w : List Char) (r : σ) : Prop :=
  if w = [] then r = q else A.destinations q w = {r}

/-- What is said of a word in terms of the states that its beginnings lead to from a state. -/
structure IsVerdictOn [StateText σ] (A : Automaton σ) (s : σ) (w : List Char)
    (verdict : Except (Branching σ) Bool) : Prop where
  /-- If no beginning diverges, the word is accepted when it leads to a final state, and the empty
  word when the state itself is final. -/
  steady : A.Steady s w → ∃ b, verdict = .ok b ∧
    (b = true ↔ if w = [] then s ∈ A.finals else ∃ r ∈ A.destinations s w, r ∈ A.finals)
  /-- If the first beginning that diverges leads nowhere, the word is refused. -/
  stuck : ∀ k, IsLeast {k | A.Diverges s w k} k → A.destinations s (w.take k) = ∅ →
    verdict = .ok false
  /-- If it leads to several states, its last symbol is reported with their number and with the
  state that is held before it, which the message quotes. -/
  branching : ∀ k, IsLeast {k | A.Diverges s w k} k → (A.destinations s (w.take k)).Nontrivial →
    ∃ held c count, A.Holds s (w.take (k - 1)) held ∧ w[k - 1]? = some c ∧
      (A.destinations s (w.take k)).encard = (count : ℕ) ∧ verdict = .error ⟨held, c, count⟩ ∧
      Branching.message ⟨held, c, count⟩ = "not a deterministic automaton: state " ++
        StateText.quoted held ++ " has " ++ toString count ++ " destinations on '" ++
        String.singleton c ++ "'"

variable [LawfulEqOrd σ] {A : Automaton σ} {q r s : σ} {c : Char} {u v w : List Char}

/-! ## Destinations -/

/-- One symbol leads to the states that a run may go on to. -/
theorem destinations_singleton (A : Automaton σ) (q : σ) (c : Char) :
    A.destinations q [c] = (A.moveFrom q c).toFinset := by
  ext r
  rw [Finset.mem_coe, FiniteSet.mem_toFinset, mem_moveFrom]
  rfl

/-- One symbol leads to as many states as a run may go on to. -/
theorem encard_destinations_singleton (A : Automaton σ) (q : σ) (c : Char) :
    (A.destinations q [c]).encard = (A.moveFrom q c).toList.length := by
  rw [destinations_singleton, Set.encard_coe_eq_coe_finsetCard]
  rfl

/-- A word leads to the states that moves on its symbols lead to from the closure of the state. -/
theorem destinations_eq_of_toList (states : List σ)
    (h : (w.foldl A.move (A.close (ExtTreeSet.ofList [q]))).toList = states) :
    A.destinations q w = {r | r ∈ states} := by
  ext r
  rw [Set.mem_ofPred_eq, ← h, ExtTreeSet.mem_toList,
    mem_foldl_move fun p hp p' hpp' => mem_close_of_leads hp hpp']
  constructor
  · intro hr
    exact ⟨q, mem_close.2 ⟨q, FiniteSet.mem_ofList_iff.2 (.head _), .nil q⟩, hr⟩
  · rintro ⟨p, hp, hr⟩
    obtain ⟨q', hq', hqp⟩ := mem_close.1 hp
    obtain rfl := List.mem_singleton.1 (FiniteSet.mem_ofList_iff.1 hq')
    exact hqp.trans hr

omit [LawfulEqOrd σ] in
/-- If the beginning of a word leads to one state only, the rest leads from there wherever the word
leads to. -/
theorem destinations_append (h : A.destinations q u = {r}) (v : List Char) :
    A.destinations q (u ++ v) = A.destinations r v := by
  have hmem (p : σ) : A.Leads q u p ↔ p = r := Set.ext_iff.1 h p
  ext p
  refine Path.append_iff.trans ?_
  simp only [hmem, exists_eq_left]
  rfl

/-- A run goes on to the one state that a symbol leads to. -/
theorem toList_moveFrom_of_destinations (h : A.destinations q [c] = {r}) :
    (A.moveFrom q c).toList = [r] :=
  FiniteSet.toList_eq_singleton fun p => mem_moveFrom.trans (Set.ext_iff.1 h p)

/-- A run ends where a symbol leads nowhere. -/
theorem ending_run_of_destinations_eq_empty (h : A.destinations q [c] = ∅) (v : List Char) :
    (A.run q (c :: v)).ending = .stuck q c := by
  have hnil : (A.moveFrom q c).toList = [] := by
    rw [ExtTreeSet.toList_eq_nil_iff, ExtTreeSet.eq_empty_iff_forall_not_mem]
    exact fun p hp => Set.eq_empty_iff_forall_notMem.1 h p (mem_moveFrom.1 hp)
  rw [run, hnil]

/-- A run ends where a symbol leads to several states, and counts them. -/
theorem ending_run_of_destinations_nontrivial (h : (A.destinations q [c]).Nontrivial)
    (v : List Char) : ∃ count : ℕ, (A.destinations q [c]).encard = count ∧
      (A.run q (c :: v)).ending = .branching ⟨q, c, count⟩ := by
  refine ⟨_, A.encard_destinations_singleton q c, ?_⟩
  rw [← Set.one_lt_encard_iff_nontrivial, encard_destinations_singleton, Nat.one_lt_cast] at h
  rw [run]
  rcases hmoves : (A.moveFrom q c).toList with _ | ⟨p, _ | ⟨p', rest⟩⟩
  · simp [hmoves] at h
  · simp [hmoves] at h
  · rfl

/-! ## Steady beginnings -/

omit [LawfulEqOrd σ] in
/-- Before the first symbol a run holds the state that it starts from. -/
theorem holds_nil : A.Holds q [] r ↔ r = q := by rw [Holds, if_pos rfl]

omit [LawfulEqOrd σ] in
/-- After a symbol a run holds the only state that the word leads to. -/
theorem holds_iff_of_ne_nil (hw : w ≠ []) : A.Holds q w r ↔ A.destinations q w = {r} := by
  rw [Holds, if_neg hw]

omit [LawfulEqOrd σ] in
/-- A steady word leads to one state by its first symbol, and from there the rest is steady. -/
theorem Steady.exists_of_cons (h : A.Steady q (c :: u)) :
    ∃ r, A.destinations q [c] = {r} ∧ A.Steady r u := by
  obtain ⟨r, hr⟩ : ∃ r, A.destinations q [c] = {r} := by
    by_contra! hne
    exact h 1 ⟨le_rfl, Nat.le_add_left 1 u.length, hne⟩
  refine ⟨r, hr, fun k ⟨hpos, hle, hne⟩ => h (k + 1) ⟨Nat.le_add_left 1 k, ?_, fun p hp => ?_⟩⟩
  · rw [List.length_cons]
    exact Nat.succ_le_succ hle
  · refine hne p ?_
    rw [← destinations_append hr]
    exact hp

/-- After a steady beginning a run holds one state, from which the rest of the word leads wherever
the word leads to, and the run goes on from there. -/
theorem Steady.exists_holds (h : A.Steady q u) : ∃ r, A.Holds q u r ∧
    (∀ v, A.destinations q (u ++ v) = A.destinations r v) ∧
      ∀ v, (A.run q (u ++ v)).ending = (A.run r v).ending := by
  induction u generalizing q with
  | nil => exact ⟨q, holds_nil.2 rfl, fun _ => rfl, fun _ => rfl⟩
  | cons c u ih =>
    obtain ⟨p, hp, hsteady⟩ := h.exists_of_cons
    obtain ⟨r, hr, hdestinations, hrun⟩ := ih hsteady
    refine ⟨r, (holds_iff_of_ne_nil (List.cons_ne_nil c u)).2 ?_, fun v => ?_, fun v => ?_⟩
    · -- The word leads where its rest leads from the state behind the first symbol.
      by_cases hu : u = []
      · subst hu
        rw [hp, holds_nil.1 hr]
      · rw [← (holds_iff_of_ne_nil hu).1 hr]
        exact destinations_append hp u
    · rw [← hdestinations]
      exact destinations_append hp (u ++ v)
    · rw [List.cons_append, ending_run_cons (toList_moveFrom_of_destinations hp), hrun]

omit [LawfulEqOrd σ] in
/-- What comes before the last symbol of the first beginning that diverges is steady. -/
theorem exists_steady_of_isLeast {k : ℕ} (h : IsLeast {k | A.Diverges s w k} k) :
    ∃ c v, w[k - 1]? = some c ∧ w = w.take (k - 1) ++ c :: v ∧
      w.take k = w.take (k - 1) ++ [c] ∧ A.Steady s (w.take (k - 1)) := by
  obtain ⟨⟨hpos, hle, -⟩, hleast⟩ := h
  have hlt : k - 1 < w.length := by omega
  refine ⟨w[k - 1], w.drop k, List.getElem?_eq_getElem hlt, ?_, ?_, ?_⟩
  · have hdrop := List.drop_eq_getElem_cons hlt
    rw [Nat.sub_add_cancel hpos] at hdrop
    rw [← hdrop, List.take_append_drop]
  · have htake := List.take_append_getElem hlt
    rw [Nat.sub_add_cancel hpos] at htake
    exact htake.symm
  · rintro j ⟨hj, hjle, hne⟩
    rw [List.length_take] at hjle
    rw [List.take_take, Nat.min_eq_left (by omega)] at hne
    have : k ≤ j := hleast ⟨hj, by omega, hne⟩
    omega

/-! ## Main result -/

/-- What a run from the least start state says of a word is told by the states that the beginnings
of the word lead to. -/
theorem isVerdictOn_accept [StateText σ] (hs : A.startState? = some s) (w : List Char) :
    A.IsVerdictOn s w (A.accept w) := by
  have haccept : A.accept w = A.verdict (A.run s w).ending := by rw [accept, hs]
  rw [haccept]
  constructor
  · intro h
    obtain ⟨r, hr, -, hrun⟩ := h.exists_holds
    have hend : (A.run s w).ending = .finished r := by
      have := hrun []
      rwa [List.append_nil] at this
    refine ⟨A.finals.contains r, by rw [hend, verdict], ?_⟩
    rw [ExtTreeSet.contains_iff_mem]
    by_cases hw : w = []
    · subst hw
      rw [if_pos rfl, holds_nil.1 hr]
    · rw [if_neg hw, (holds_iff_of_ne_nil hw).1 hr]
      simp
  · intro k hk hempty
    obtain ⟨c, v, -, hw, htake, hsteady⟩ := exists_steady_of_isLeast hk
    obtain ⟨r, -, hdestinations, hrun⟩ := hsteady.exists_holds
    rw [htake, hdestinations] at hempty
    rw [hw, hrun, ending_run_of_destinations_eq_empty hempty, verdict]
  · intro k hk hseveral
    obtain ⟨c, v, hc, hw, htake, hsteady⟩ := exists_steady_of_isLeast hk
    obtain ⟨r, hr, hdestinations, hrun⟩ := hsteady.exists_holds
    rw [htake, hdestinations] at hseveral ⊢
    obtain ⟨count, hcount, hend⟩ := ending_run_of_destinations_nontrivial hseveral v
    refine ⟨r, c, count, hr, hc, hcount, ?_, rfl⟩
    rw [hw, hrun, hend, verdict]

/-- An automaton with two start states, epsilon transitions that come back to their state, one that
leaves the start, and two targets of one symbol. -/
def branchingAutomaton : Automaton String :=
  ((((empty.setAlphabet (ExtTreeSet.ofList ['a', 'b'])).addTransitions
    [⟨"p", .epsilon, "p"⟩, ⟨"p", .epsilon, "q"⟩, ⟨"q", .symbol 'a', "r"⟩, ⟨"r", .epsilon, "r"⟩,
      ⟨"r", .symbol 'b', "r"⟩, ⟨"r", .symbol 'b', "t"⟩]).markStart "p").markStart "t").markFinal "r"

/-- One word leads it to a final state, the second one is stuck after its first symbol, and the third
one branches there. -/
theorem isVerdictOn_accept_branchingAutomaton :
    branchingAutomaton.startState? = some "p" ∧
      (branchingAutomaton.Steady "p" ['a'] ∧ branchingAutomaton.accept ['a'] = .ok true) ∧
      (IsLeast {k | branchingAutomaton.Diverges "p" ['a', 'a', 'b'] k} 2 ∧
        branchingAutomaton.accept ['a', 'a', 'b'] = .ok false) ∧
      IsLeast {k | branchingAutomaton.Diverges "p" ['a', 'b', 'a'] k} 2 ∧
        branchingAutomaton.accept ['a', 'b', 'a'] = .error ⟨"r", 'b', 2⟩ := by
  have hs : branchingAutomaton.startState? = some "p" := by decide +kernel
  have hone : branchingAutomaton.destinations "p" ['a'] = {"r"} := by
    rw [destinations_eq_of_toList ["r"] (by decide +kernel)]
    simp
  have hnone : branchingAutomaton.destinations "p" ['a', 'a'] = ∅ := by
    rw [destinations_eq_of_toList [] (by decide +kernel)]
    simp
  have hseveral : branchingAutomaton.destinations "p" ['a', 'b'] = {"r", "t"} := by
    rw [destinations_eq_of_toList ["r", "t"] (by decide +kernel)]
    simp [Set.ext_iff]
  have htwo : (branchingAutomaton.destinations "p" ['a', 'b']).Nontrivial := by
    rw [hseveral]
    exact Set.nontrivial_pair (by decide)
  -- The first symbol alone does not diverge.
  have hleast {c d : Char} (h : ∀ r, branchingAutomaton.destinations "p" ['a', c] ≠ {r}) :
      IsLeast {k | branchingAutomaton.Diverges "p" ['a', c, d] k} 2 := by
    refine ⟨⟨by decide, by simp, h⟩, ?_⟩
    rintro k ⟨hpos, -, hne⟩
    by_contra hlt
    obtain rfl : k = 1 := by omega
    exact hne "r" hone
  have hsteady : branchingAutomaton.Steady "p" ['a'] := by
    rintro k ⟨hpos, hle, hne⟩
    obtain rfl : k = 1 := Nat.le_antisymm hle hpos
    exact hne "r" hone
  have hstuck := hleast (d := 'b') fun r => hnone ▸ (Set.singleton_ne_empty r).symm
  have hbranching := hleast (d := 'a') fun r h => Set.not_nontrivial_singleton (h ▸ htwo)
  obtain ⟨b, hb, hfinal⟩ := (isVerdictOn_accept hs ['a']).steady hsteady
  have hb' : b = true := by
    rw [hfinal, if_neg (by simp), hone]
    exact ⟨"r", rfl, by decide +kernel⟩
  obtain ⟨held, c, count, hheld, hc, hcount, haccept, -⟩ :=
    (isVerdictOn_accept hs ['a', 'b', 'a']).branching 2 hbranching htwo
  obtain rfl : held = "r" :=
    Set.singleton_injective (((holds_iff_of_ne_nil (by simp)).1 hheld).symm.trans hone)
  obtain rfl : 'b' = c := Option.some.inj hc
  obtain rfl : count = 2 := by
    have hpair : (branchingAutomaton.destinations "p" ['a', 'b']).encard = 2 := by
      rw [hseveral]
      exact Set.encard_pair (by decide)
    exact_mod_cast hcount.symm.trans hpair
  exact ⟨hs, ⟨hsteady, hb' ▸ hb⟩,
    ⟨hstuck, (isVerdictOn_accept hs _).stuck 2 hstuck hnone⟩, hbranching, haccept⟩

end FiniteAutomata.Automaton
