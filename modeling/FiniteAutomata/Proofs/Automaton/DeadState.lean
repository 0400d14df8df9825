import FiniteAutomata.Proofs.Automaton.Determinism
import FiniteAutomata.Proofs.Automaton.NameIndependence

/-!
# The dead state of a determinized automaton

Reading a word takes the state of an occurring set to the state of the set that the word leads to,
and nowhere else (`leads_stateName_iff`). From the trap it therefore leads back to the trap only,
which is not final. If a final state can be reached from each state of an automaton, so it can from
each set with a member, and the trap is the only dead state of the determinized automaton
(`onlyTrapIsDead_determinize`).

A run then stands on the trap when the word has no accepted continuation. In the canonical order the
trap is last: no other state is a trap or out of reach, so the traps that are put off and the states
that are not reached are this one state together.
-/

namespace FiniteAutomata

open Std

variable {σ : Type} [Ord σ] [TransOrd σ]

/-- Only the empty set has the trap for its state. -/
theorem FiniteSet.stateName_eq_trapName_iff [StateText σ] {X : FiniteSet σ} :
    X.stateName = trapName ↔ X = ∅ := by
  constructor
  · intro h
    by_contra hne
    rw [stateName_of_ne_empty hne] at h
    exact compositeName_ne_trapName _ h
  · rintro rfl
    exact stateName_empty

namespace Automaton

/-- A final state can be reached from each state by a word over the alphabet. -/
def Coaccessible (A : Automaton σ) : Prop :=
  ∀ q ∈ A.stateSet, ∃ w : List Char, (∀ c ∈ w, c ∈ A.alphabet) ∧ ∃ r ∈ A.finals, A.Leads q w r

/-- In a deterministic automaton the trap is the only state from which no final state can be
reached, and the only one, if any, that is out of reach from the start. -/
structure OnlyTrapIsDead (D : Automaton String) (start : String) : Prop where
  /-- Runs start from the start. -/
  startState?_eq : D.startState? = some start
  /-- The trap is a state. -/
  trap_mem : trapName ∈ D.stateSet
  /-- No word leads from the trap to a final state. -/
  not_leads_trap : ∀ w, ∀ r ∈ D.finals, ¬D.Leads trapName w r
  /-- Any other state is reached from the start. -/
  exists_leads_start : ∀ q ∈ D.stateSet, q ≠ trapName → ∃ w, D.Leads start w q
  /-- From any other state a final state is reached. -/
  exists_leads_final : ∀ q ∈ D.stateSet, q ≠ trapName → ∃ w, ∃ r ∈ D.finals, D.Leads q w r
  /-- The run on a word ends on the trap when no continuation of the word is accepted. -/
  ending_eq_trap_iff : ∀ u : List Char, (∀ c ∈ u, c ∈ D.alphabet) →
    ((D.run start u).ending = .finished trapName ↔ ∀ v, D.accept (u ++ v) ≠ .ok true)
  /-- Canonical renaming numbers the states, and the last number goes to the trap. -/
  canonicalName_eq : ∀ stem, D.renameCanonical stem = D.mapStates (D.canonicalName start stem) ∧
    ∀ q ∈ D.stateSet, ∃ i < D.allStates.size, D.canonicalName start stem q = Namer.nameOf stem i ∧
      (i + 1 = D.allStates.size ↔ q = trapName)

variable [LawfulEqOrd σ] {A : Automaton σ} {X : FiniteSet σ} {q : σ} {w : List Char}

/-! ## Where reading leads -/

/-- The empty set moves to itself. -/
theorem foldl_move_empty (A : Automaton σ) (w : List Char) : w.foldl A.move ∅ = ∅ := by
  induction w with
  | nil => rfl
  | cons c w ih => rw [List.foldl_cons, move_empty, ih]

/-- Occurring sets are closed: the empty word does not lead out of them. -/
theorem Occurs.mem_of_leads (hX : A.Occurs X) : ∀ q ∈ X, ∀ p, A.Leads q [] p → p ∈ X := by
  refine hX.induction (P := fun X => ∀ q ∈ X, ∀ p, A.Leads q [] p → p ∈ X) ?_ ?_ ?_
  · exact fun q hq => absurd hq ExtTreeSet.not_mem_empty
  · exact fun q hq p hqp => mem_close_of_leads hq hqp
  · exact fun X _ c _ q hq p hqp => mem_close_of_leads hq hqp

variable [StateText σ]

/-- If names are coherent, a word leads from the state of an occurring set to the state of the set
that it leads to, and nowhere else. -/
theorem NamesCoherent.leads_stateName_iff (h : A.NamesCoherent) (hX : A.Occurs X) {r : String} :
    A.determinize.Leads X.stateName w r ↔
      (∀ c ∈ w, c ∈ A.alphabet) ∧ r = (w.foldl A.move X).stateName := by
  have hsymbols : ∀ t ∈ {t | t ∈ A.determinize.transitions}, t.isEpsilon = false :=
    fun t ht => isEpsilon_determinize ht
  induction w generalizing X with
  | nil => simp [Path.nil_iff_of_not_isEpsilon hsymbols, eq_comm]
  | cons c w ih =>
    rw [List.forall_mem_cons, List.foldl_cons]
    refine (Path.cons_iff_of_not_isEpsilon hsymbols).trans ⟨?_, ?_⟩
    · rintro ⟨p, ht, hpr⟩
      obtain ⟨hc, rfl⟩ := (h.mem_transitions_iff hX).1 ht
      obtain ⟨hw, hr⟩ := (ih (hX.move hc)).1 hpr
      exact ⟨⟨hc, hw⟩, hr⟩
    · rintro ⟨⟨hc, hw⟩, hr⟩
      exact ⟨_, (h.mem_transitions_iff hX).2 ⟨hc, rfl⟩, (ih (hX.move hc)).2 ⟨hw, hr⟩⟩

/-- If names are coherent, the run on a word over the alphabet ends on the state of the set that the
word leads to. -/
theorem NamesCoherent.ending_run (h : A.NamesCoherent) (hX : A.Occurs X)
    (hw : ∀ c ∈ w, c ∈ A.alphabet) : (A.determinize.run X.stateName w).ending =
      .finished (w.foldl A.move X).stateName := by
  induction w generalizing X with
  | nil => rfl
  | cons c w ih =>
    rw [List.forall_mem_cons] at hw
    rw [ending_run_cons (h.toList_moveFrom hX hw.1)]
    exact ih (hX.move hw.1) hw.2

/-! ## Dead states -/

/-- The trap has a loop for each symbol of the alphabet. -/
theorem selfLoop_mem_transitions {c : Char} (hc : c ∈ A.alphabet) :
    Transition.selfLoop trapName c ∈ A.determinize.transitions := by
  refine mem_transitions_determinize.2 ⟨∅, .inl rfl, c, hc, ?_⟩
  rw [move_empty, FiniteSet.stateName_empty]
  rfl

/-- The trap is a state if there is a symbol to read. -/
theorem trapName_mem_stateSet {c : Char} (hc : c ∈ A.alphabet) :
    trapName ∈ A.determinize.stateSet :=
  (mem_stateSet_of_mem_transitions (selfLoop_mem_transitions hc)).1

/-- The trap is not final. -/
theorem NamesDistinct.trapName_not_mem_finals (h : A.NamesDistinct) :
    trapName ∉ A.determinize.finals := by
  rw [← FiniteSet.stateName_empty (σ := σ), h.mem_finals_iff (.inl rfl)]
  rintro ⟨q, hq, -⟩
  exact ExtTreeSet.not_mem_empty hq

/-- Whatever is read, the trap leads to itself. -/
theorem NamesCoherent.eq_of_leads_trapName (h : A.NamesCoherent) {r : String}
    (hr : A.determinize.Leads trapName w r) : r = trapName := by
  rw [← FiniteSet.stateName_empty (σ := σ), h.leads_stateName_iff (.inl rfl),
    foldl_move_empty] at hr
  rw [hr.2, FiniteSet.stateName_empty]

/-- If a final state can be reached from each state, one is reached from each set with a member. -/
theorem NamesDistinct.exists_leads_final (h : A.NamesDistinct) (hA : A.Coaccessible)
    (hX : A.Occurs X) (hne : X ≠ ∅) :
    ∃ w, ∃ r ∈ A.determinize.finals, A.determinize.Leads X.stateName w r := by
  obtain ⟨q, hq⟩ := FiniteSet.exists_mem_of_ne_empty hne
  obtain ⟨w, hw, r, hr, hqr⟩ := hA q (hX.mem_stateSet q hq)
  have hmem : r ∈ w.foldl A.move X := (mem_foldl_move hX.mem_of_leads).2 ⟨q, hq, hqr⟩
  exact ⟨w, _, (h.mem_finals_iff (hX.foldl_move hw)).2 ⟨r, hmem, hr⟩,
    (h.coherent.leads_stateName_iff hX).2 ⟨hw, rfl⟩⟩

/-- If a final state can be reached from each state, a word leads nowhere exactly when no
continuation of it is accepted. -/
theorem NamesDistinct.foldl_move_startSet_eq_empty_iff (h : A.NamesDistinct) (hA : A.Coaccessible)
    (hw : ∀ c ∈ w, c ∈ A.alphabet) :
    w.foldl A.move A.startSet = ∅ ↔ ∀ v, A.determinize.accept (w ++ v) ≠ .ok true := by
  have haccept (v : List Char) : A.determinize.accept (w ++ v) = .ok true ↔
      (∀ c ∈ w ++ v, c ∈ A.alphabet) ∧ ∃ q ∈ A.starts, ∃ r ∈ A.finals, A.Leads q (w ++ v) r := by
    obtain ⟨b, hb, hiff⟩ := h.accept_determinize (w ++ v)
    rw [hb, ← hiff, Except.ok.injEq]
  constructor
  · -- An accepted continuation passes through a state that the word leads to.
    intro hempty v hv
    obtain ⟨-, q, hq, r, -, hqr⟩ := (haccept v).1 hv
    obtain ⟨p, hqp, -⟩ := Path.append_iff.1 hqr
    have hp : p ∈ w.foldl A.move A.startSet := mem_foldl_move_startSet.2 ⟨q, hq, hqp⟩
    rw [hempty] at hp
    exact ExtTreeSet.not_mem_empty hp
  · intro hnone
    by_contra hne
    obtain ⟨p, hp⟩ := FiniteSet.exists_mem_of_ne_empty hne
    obtain ⟨q, hq, hqp⟩ := mem_foldl_move_startSet.1 hp
    obtain ⟨v, hv, r, hr, hpr⟩ := hA p ((A.occurs_startSet.foldl_move hw).mem_stateSet p hp)
    refine hnone v ((haccept v).2 ⟨?_, q, hq, r, hr, hqp.trans hpr⟩)
    exact fun c hc => (List.mem_append.1 hc).elim (hw c) (hv c)

/-! ## The trap in the canonical order -/

/-- If a final state can be reached from each state, the trap is the only state that is a trap by
its transitions. -/
theorem NamesDistinct.isTrap_stateName_iff (h : A.NamesDistinct) (hA : A.Coaccessible) {c : Char}
    (hc : c ∈ A.alphabet) (hX : A.Occurs X) :
    A.determinize.isTrap X.stateName = true ↔ X = ∅ := by
  rw [isTrap_iff]
  constructor
  · -- Whoever only comes back to a state that is not final reaches no final state.
    rintro ⟨hfinal, -, hback⟩
    by_contra hne
    obtain ⟨w, r, hr, hw⟩ := h.exists_leads_final hA hX hne
    rw [← hw.eq_of_forall_target_eq hback] at hr
    exact hfinal hr
  · rintro rfl
    rw [FiniteSet.stateName_empty]
    refine ⟨h.trapName_not_mem_finals, ⟨_, selfLoop_mem_transitions hc, rfl⟩, ?_⟩
    rintro ⟨_, l, r⟩ ht rfl
    cases l with
    | epsilon => exact h.coherent.eq_of_leads_trapName (.epsilon ht (.nil r))
    | symbol d => exact h.coherent.eq_of_leads_trapName (.symbol ht (.nil r))

/-- If a final state can be reached from each state, the trap is the only state that is put off when
it is reached. -/
theorem NamesDistinct.isDeferred_stateName_iff (h : A.NamesDistinct) (hA : A.Coaccessible)
    {c : Char} (hc : c ∈ A.alphabet) (hstarts : A.starts ≠ ∅) (hX : A.Occurs X) :
    A.determinize.isDeferred A.startSet.stateName X.stateName = true ↔ X = ∅ := by
  rw [isDeferred, Bool.and_eq_true, h.isTrap_stateName_iff hA hc hX, bne_iff_ne, Ne,
    Std.compare_eq_iff_eq]
  refine and_iff_right_of_imp ?_
  rintro rfl hstart
  rw [FiniteSet.stateName_empty, eq_comm, FiniteSet.stateName_eq_trapName_iff,
    startSet_eq_empty_iff] at hstart
  exact hstarts hstart

/-- If a final state can be reached from each state, the trap is the last state in the canonical
order. -/
theorem NamesDistinct.exists_canonicalOrder_eq (h : A.NamesDistinct) (hA : A.Coaccessible)
    {c : Char} (hc : c ∈ A.alphabet) (hstarts : A.starts ≠ ∅) :
    ∃ order, A.determinize.canonicalOrder A.startSet.stateName = order ++ [trapName] := by
  have hstart : A.startSet.stateName ∈ A.determinize.stateSet :=
    mem_stateSet_of_mem_starts (mem_starts_determinize.2 ⟨hstarts, rfl⟩)
  have hnodup := A.determinize.nodup_canonicalOrder A.startSet.stateName
  rw [canonicalOrder_eq, List.append_assoc] at hnodup ⊢
  refine ⟨_, congrArg _ (List.perm_singleton.1 ?_)⟩
  rw [List.perm_ext_iff_of_nodup (List.nodup_append.1 hnodup).2.1 (List.nodup_singleton _)]
  -- What comes after the other states is reached and put off, or not reached.
  intro q
  rw [List.mem_append, List.mem_filter, mem_sortByName, mem_unreached, List.mem_singleton]
  constructor
  · rintro (⟨hq, hdeferred⟩ | ⟨hq, hunreached⟩)
    · obtain ⟨X, hX, rfl⟩ :=
        exists_occurs_of_mem_allStates (mem_stateSet_of_mem_reachable hstart hq)
      rw [h.isDeferred_stateName_iff hA hc hstarts hX] at hdeferred
      exact FiniteSet.stateName_eq_trapName_iff.2 hdeferred
    · obtain ⟨X, rfl | hX, rfl⟩ := exists_occurs_of_mem_allStates hq
      · exact FiniteSet.stateName_empty
      · exact absurd (mem_reachable.2 (exists_leads_determinize hX)) hunreached
  · rintro rfl
    by_cases hreached : trapName ∈ A.determinize.reachable A.startSet.stateName
    · refine .inl ⟨hreached, ?_⟩
      rw [← FiniteSet.stateName_empty (σ := σ)]
      exact (h.isDeferred_stateName_iff hA hc hstarts (.inl rfl)).2 rfl
    · exact .inr ⟨trapName_mem_stateSet hc, hreached⟩

/-! ## Main result -/

/-- If names tell sets apart and a final state can be reached from each state, the trap is the only
dead state of the determinized automaton. -/
theorem onlyTrapIsDead_determinize (h : A.NamesDistinct) (hA : A.Coaccessible) {c : Char}
    (hc : c ∈ A.alphabet) (hstarts : A.starts ≠ ∅) :
    A.determinize.OnlyTrapIsDead A.startSet.stateName where
  startState?_eq := by rw [startState?_determinize, if_neg hstarts]
  trap_mem := trapName_mem_stateSet hc
  not_leads_trap w r hr hw := by
    rw [h.coherent.eq_of_leads_trapName hw] at hr
    exact h.trapName_not_mem_finals hr
  exists_leads_start q hq hne := by
    obtain ⟨X, rfl | hX, rfl⟩ := exists_occurs_of_mem_allStates hq
    · exact absurd FiniteSet.stateName_empty hne
    · exact exists_leads_determinize hX
  exists_leads_final q hq hne := by
    obtain ⟨X, hX, rfl⟩ := exists_occurs_of_mem_allStates hq
    exact h.exists_leads_final hA hX (mt FiniteSet.stateName_eq_trapName_iff.2 hne)
  ending_eq_trap_iff u hu := by
    rw [alphabet_determinize] at hu
    rw [h.coherent.ending_run A.occurs_startSet hu, Ending.finished.injEq,
      FiniteSet.stateName_eq_trapName_iff, h.foldl_move_startSet_eq_empty_iff hA hu]
  canonicalName_eq stem := by
    have hstart : A.determinize.startState? = some A.startSet.stateName := by
      rw [startState?_determinize, if_neg hstarts]
    have hmem := mem_stateSet_of_startState? hstart
    obtain ⟨w, r, hr, -⟩ :=
      h.exists_leads_final hA A.occurs_startSet (mt startSet_eq_empty_iff.1 hstarts)
    have hnameable : A.determinize.Nameable :=
      ⟨FiniteSet.ne_empty_of_mem (startState?_eq_some_iff.1 hstart).1,
        transitions_determinize_ne_empty hc, FiniteSet.ne_empty_of_mem hr⟩
    obtain ⟨order, horder⟩ := h.exists_canonicalOrder_eq hA hc hstarts
    exact ⟨hnameable.renameCanonical_eq hstart stem,
      fun q hq => exists_canonicalName_eq hmem horder hq⟩

end Automaton

end FiniteAutomata
