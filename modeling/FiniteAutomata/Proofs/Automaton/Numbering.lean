import FiniteAutomata.Proofs.Automaton.Renaming
import FiniteAutomata.Proofs.Distance

/-!
# The order of canonical names

Canonical renaming numbers the states, and `ComesBefore` says which of two states gets the smaller
number: reached states come before those that are not reached, reached traps come after the other
reached states, among either kind the nearer state comes first, and texts decide between states that
are not reached (`exists_numbering`). A trap may be nearer to the start than other states are; that
it waits does not keep the traversal from anything, because it leads nowhere else.
-/

namespace FiniteAutomata

open Std

/-- A state comes before another by its text if the text is shorter, in bytes, or is as long and
comes before that of the other. -/
theorem nameOrder_eq_lt_iff {σ : Type} [StateText σ] {q r : σ} : nameOrder q r = .lt ↔
    (StateText.text q).utf8ByteSize < (StateText.text r).utf8ByteSize ∨
      (StateText.text q).utf8ByteSize = (StateText.text r).utf8ByteSize ∧
        StateText.text q < StateText.text r := by
  rw [nameOrder, textOrder, compareLex, Ordering.then_eq_lt, compareOn, Nat.compare_eq_lt,
    Nat.compare_eq_eq]
  exact or_congr_right (and_congr_right fun _ => compareOfLessAndEq_eq_lt)

namespace Automaton

open Search

variable {σ : Type} [Ord σ] [TransOrd σ] {A : Automaton σ} {start q r : σ}

/-- A transition leads from one state to the other, whatever its label is. -/
def Follows (A : Automaton σ) (q r : σ) : Prop := ∃ l, (⟨q, l, r⟩ : Transition σ) ∈ A.transitions

/-- Some word leads from one state to the other. -/
def LeadsTo (A : Automaton σ) (q r : σ) : Prop := ∃ w, A.Leads q w r

/-- A state other than the start that is not final and has transitions, all of which come back. -/
structure TrapFrom (A : Automaton σ) (start q : σ) : Prop where
  /-- The start is no trap. -/
  ne_start : q ≠ start
  /-- A final state is no trap. -/
  not_mem_finals : q ∉ A.finals
  /-- A transition leaves the state. -/
  exists_transition : ∃ t ∈ A.transitions, t.source = q
  /-- No transition from the state leads elsewhere. -/
  target_eq : ∀ t ∈ A.transitions, t.source = q → t.target = q

/-- A state gets a smaller number than another. -/
inductive ComesBefore [StateText σ] (A : Automaton σ) (start : σ) : σ → σ → Prop where
  /-- Reached traps wait until the other reached states have their numbers. -/
  | trap {q r : σ} (hq : A.LeadsTo start q) (hr : A.LeadsTo start r)
      (hlive : ¬A.TrapFrom start q) (htrap : A.TrapFrom start r) : ComesBefore A start q r
  /-- States that are not reached wait until the reached ones have their numbers. -/
  | unreached {q r : σ} (hq : A.LeadsTo start q) (hr : ¬A.LeadsTo start r) : ComesBefore A start q r
  /-- Of two traps, and of two states that are none, the nearer one comes first. The distance is the
  least number of transitions from the start. -/
  | nearer {q r : σ} {m n : ℕ} (hkind : A.TrapFrom start q ↔ A.TrapFrom start r)
      (hq : IsDistance A.Follows start m q) (hr : IsDistance A.Follows start n r) (hmn : m < n) :
      ComesBefore A start q r
  /-- Of two states that are not reached, the one with the shorter text comes first, and of texts of
  one length the smaller one. -/
  | text {q r : σ} (hq : ¬A.LeadsTo start q) (hr : ¬A.LeadsTo start r)
      (htext : (StateText.text q).utf8ByteSize < (StateText.text r).utf8ByteSize ∨
        (StateText.text q).utf8ByteSize = (StateText.text r).utf8ByteSize ∧
          StateText.text q < StateText.text r) : ComesBefore A start q r

variable [LawfulEqOrd σ]

/-- The traps are the states that are put off. -/
theorem isDeferred_iff : A.isDeferred start q = true ↔ A.TrapFrom start q := by
  rw [isDeferred, Bool.and_eq_true, isTrap_iff, bne_iff_ne, Std.compare_ne_eq_iff_ne]
  constructor
  · rintro ⟨hne, hfinal, htransition, htarget⟩
    exact ⟨hne, hfinal, htransition, htarget⟩
  · rintro ⟨hne, hfinal, htransition, htarget⟩
    exact ⟨hne, hfinal, htransition, htarget⟩

variable [StateText σ]

/-- The neighbours of a state are the states that follow it. -/
theorem adjacent_neighbours (A : Automaton σ) : Adjacent A.neighbours = A.Follows := by
  funext q r
  exact propext mem_neighbours

/-- The states at some distance from the start are reached. -/
theorem leadsTo_of_isDistance {n : ℕ} (h : IsDistance A.Follows start n q) :
    A.LeadsTo start q := by
  rw [← adjacent_neighbours] at h
  have hreaches : Reaches A.neighbours start q := exists_steps_iff.1 ⟨n, h.1⟩
  exact mem_reachable.1 ((mem_search (A.encloses_reachable start)).2 ⟨start, .head _, hreaches⟩)

/-- The traversal takes the states by their distance from the start. -/
theorem pairwise_reachable (A : Automaton σ) (start : σ) :
    (A.reachable start).Pairwise fun q r => ∀ m n, IsDistance A.Follows start m q →
      IsDistance A.Follows start n r → m ≤ n := by
  have h := A.traverses_reachable start
  rw [← neighbours_eq_flatten] at h
  rw [← adjacent_neighbours]
  exact h.pairwise_distance

/-! ## What comes first -/

omit [LawfulEqOrd σ] in
/-- No state comes before itself. -/
theorem not_comesBefore_self (A : Automaton σ) (start q : σ) : ¬A.ComesBefore start q q := by
  intro h
  cases h with
  | trap _ _ hlive htrap => exact hlive htrap
  | unreached hq hr => exact hr hq
  | nearer _ hq hr hmn => exact hmn.ne (hq.unique hr)
  | text _ _ htext => exact htext.elim (lt_irrefl _) fun h => lt_irrefl _ h.2

omit [LawfulEqOrd σ] in
/-- A trap does not come before a reached state that is none. -/
theorem not_comesBefore_of_trapFrom (hq : A.LeadsTo start q) (hlive : ¬A.TrapFrom start q)
    (htrap : A.TrapFrom start r) : ¬A.ComesBefore start r q := by
  intro h
  cases h with
  | trap _ _ hnot => exact hnot htrap
  | unreached _ hnot => exact hnot hq
  | nearer hkind => exact hlive (hkind.1 htrap)
  | text _ hnot => exact hnot hq

/-- A state that is not reached does not come before one that is. -/
theorem not_comesBefore_of_not_leadsTo (hq : A.LeadsTo start q) (hr : ¬A.LeadsTo start r) :
    ¬A.ComesBefore start r q := by
  intro h
  cases h with
  | trap hreached => exact hr hreached
  | unreached hreached => exact hr hreached
  | nearer _ hreached => exact hr (leadsTo_of_isDistance hreached)
  | text _ hnot => exact hnot hq

/-- Of reached states that are all traps, or none of them, the nearer ones are taken first. -/
theorem pairwise_filter_reachable (A : Automaton σ) (start : σ) {p : σ → Bool}
    (hp : ∀ q r, p q = true → p r = true → (A.TrapFrom start q ↔ A.TrapFrom start r)) :
    ((A.reachable start).filter p).Pairwise fun q r => ¬A.ComesBefore start r q := by
  refine List.Pairwise.imp_of_mem (fun {q r} hq hr hle h => ?_)
    ((A.pairwise_reachable start).filter p)
  obtain ⟨hq, hpq⟩ := List.mem_filter.1 hq
  obtain ⟨-, hpr⟩ := List.mem_filter.1 hr
  cases h with
  | trap _ _ hlive htrap => exact hlive ((hp q r hpq hpr).1 htrap)
  | unreached _ hnot => exact hnot (mem_reachable.1 hq)
  | nearer _ hr' hq' hlt => exact absurd (hle _ _ hq' hr') hlt.not_ge
  | text _ hnot => exact hnot (mem_reachable.1 hq)

/-- The states that are not reached come by their texts. -/
theorem pairwise_unreached (A : Automaton σ) (start : σ) :
    (sortByName (A.unreached start)).Pairwise fun q r => ¬A.ComesBefore start r q := by
  have hnot {q : σ} (hq : q ∈ sortByName (A.unreached start)) : ¬A.LeadsTo start q :=
    mt mem_reachable.2 (mem_unreached.1 (mem_sortByName.1 hq)).2
  refine List.Pairwise.imp_of_mem (fun {q r} hq hr hlt h => ?_) (pairwise_sortByName _)
  cases h with
  | trap hreached => exact hnot hr hreached
  | unreached hreached => exact hnot hr hreached
  | nearer _ hreached => exact hnot hr (leadsTo_of_isDistance hreached)
  | text _ _ htext =>
    -- The texts cannot be in order both ways.
    have hgt : nameOrder q r = .gt := OrientedCmp.gt_iff_lt.2 (nameOrder_eq_lt_iff.2 htext)
    rw [byName, compareLex, hgt] at hlt
    cases hlt

/-- The canonical order puts no state after one that it comes before. -/
theorem pairwise_canonicalOrder (A : Automaton σ) (start : σ) :
    (A.canonicalOrder start).Pairwise fun q r => ¬A.ComesBefore start r q := by
  have hlive {q : σ} (hq : (!A.isDeferred start q) = true) : ¬A.TrapFrom start q := by
    rw [← isDeferred_iff, Bool.not_eq_true, ← Bool.not_eq_true']
    exact hq
  rw [canonicalOrder_eq, List.pairwise_append, List.pairwise_append]
  refine ⟨⟨A.pairwise_filter_reachable start fun q r hq hr => iff_of_false (hlive hq) (hlive hr),
    A.pairwise_filter_reachable start fun q r hq hr =>
      iff_of_true (isDeferred_iff.1 hq) (isDeferred_iff.1 hr), fun q hq r hr => ?_⟩,
    A.pairwise_unreached start, fun q hq r hr => ?_⟩
  · obtain ⟨hq, hqlive⟩ := List.mem_filter.1 hq
    have hr : A.isDeferred start r = true := (List.mem_filter.1 hr).2
    exact not_comesBefore_of_trapFrom (mem_reachable.1 hq) (hlive hqlive) (isDeferred_iff.1 hr)
  · have hq : q ∈ A.reachable start :=
      (List.mem_append.1 hq).elim List.mem_of_mem_filter List.mem_of_mem_filter
    have hr : r ∉ A.reachable start := (mem_unreached.1 (mem_sortByName.1 hr)).2
    exact not_comesBefore_of_not_leadsTo (mem_reachable.1 hq) (mt mem_reachable.2 hr)

/-! ## The numbers -/

/-- Canonical renaming numbers the states from the least start state, and a state that comes before
another gets the smaller number. -/
theorem exists_numbering (hA : A.Nameable) (hstart : A.startState? = some start) (stem : Char) :
    A.renameCanonical stem = A.mapStates (A.canonicalName start stem) ∧
      ∃ number : σ → ℕ,
        (∀ q ∈ A.stateSet, A.canonicalName start stem q = Namer.nameOf stem (number q)) ∧
        ∀ q ∈ A.stateSet, ∀ r ∈ A.stateSet, A.ComesBefore start q r → number q < number r := by
  classical
  have hstate := mem_stateSet_of_startState? hstart
  have hindex (q : σ) (hq : q ∈ A.stateSet) :
      (A.canonicalOrder start).idxOf q < (A.canonicalOrder start).length :=
    List.idxOf_lt_length_of_mem ((mem_canonicalOrder hstate).2 hq)
  refine ⟨hA.renameCanonical_eq hstart stem, fun q => (A.canonicalOrder start).idxOf q,
    fun q hq => ?_, fun q hq r hr hbefore => ?_⟩
  · have hname := congrArg (·[(A.canonicalOrder start).idxOf q]?)
      (A.map_canonicalName_canonicalOrder start stem)
    simpa [hindex q hq] using hname
  · by_contra! hle
    obtain hlt | heq := Nat.lt_or_eq_of_le hle
    · have hnot := List.pairwise_iff_getElem.1 (A.pairwise_canonicalOrder start) _ _ (hindex r hr)
        (hindex q hq) hlt
      rw [List.getElem_idxOf, List.getElem_idxOf] at hnot
      exact hnot hbefore
    · obtain rfl := (List.idxOf_inj ((mem_canonicalOrder hstate).2 hr)).1 heq
      exact A.not_comesBefore_self start _ hbefore

/-- In the mixed automaton the trap waits for a final state that is farther away, and comes before
the states that are not reached. -/
theorem exists_numbering_mixedAutomaton :
    mixedAutomaton.Nameable ∧ mixedAutomaton.startState? = some 10 ∧
      mixedAutomaton.renameCanonical 'q' =
        mixedAutomaton.mapStates (mixedAutomaton.canonicalName 10 'q') ∧
      ∃ number : Int → ℕ,
        (∀ q ∈ mixedAutomaton.stateSet,
          mixedAutomaton.canonicalName 10 'q' q = Namer.nameOf 'q' (number q)) ∧
        number 2 < number 7 ∧ number 7 < number 30 ∧ number 30 < number 40 := by
  have hA : mixedAutomaton.Nameable := ⟨by decide +kernel, by decide +kernel, by decide +kernel⟩
  have hstart : mixedAutomaton.startState? = some 10 := by decide +kernel
  have hstates : ∀ q ∈ [2, 7, 30, 40], q ∈ mixedAutomaton.allStates := by decide +kernel
  obtain ⟨hrename, number, hname, hlt⟩ := exists_numbering hA hstart 'q'
  have htrap : mixedAutomaton.TrapFrom 10 7 := isDeferred_iff.1 (by decide +kernel)
  have hlive : ¬mixedAutomaton.TrapFrom 10 2 := fun h => h.not_mem_finals (by decide +kernel)
  have hreached : ∀ q ∈ [2, 7], mixedAutomaton.LeadsTo 10 q := fun q hq =>
    mem_reachable.1 ((by decide +kernel : ∀ q ∈ [2, 7], q ∈ mixedAutomaton.reachable 10) q hq)
  have hunreached : ∀ q ∈ [30, 40], ¬mixedAutomaton.LeadsTo 10 q := fun q hq => mt mem_reachable.2
    ((by decide +kernel : ∀ q ∈ [30, 40], q ∉ mixedAutomaton.reachable 10) q hq)
  exact ⟨hA, hstart, hrename, number, hname,
    hlt 2 (hstates 2 (by decide)) 7 (hstates 7 (by decide))
      (.trap (hreached 2 (by decide)) (hreached 7 (by decide)) hlive htrap),
    hlt 7 (hstates 7 (by decide)) 30 (hstates 30 (by decide))
      (.unreached (hreached 7 (by decide)) (hunreached 30 (by decide))),
    hlt 30 (hstates 30 (by decide)) 40 (hstates 40 (by decide))
      (.text (hunreached 30 (by decide)) (hunreached 40 (by decide)) (by decide +kernel))⟩

end Automaton

end FiniteAutomata
