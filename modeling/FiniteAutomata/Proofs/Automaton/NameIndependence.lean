import FiniteAutomata.Proofs.Automaton.Isomorphism
import FiniteAutomata.Proofs.Automaton.SubsetConstruction

/-!
# Determinization does not depend on names

The names of states decide in which order the sets of states are met, and what these are called.
They do not decide which sets there are. Under a function that is injective on the states, the sets
that occur are the images of those that occurred (`occurs_mapStates_iff`), so if names tell sets
apart before and after, one determinized automaton is the other with its states renamed
(`determinize_mapStates`).

The shape of a determinized automaton decides (`NamesCoherent.shapeDecides_determinize`): it has one
start state and one target for each state and symbol, and every set that the search found is
reached, so that at most the trap is not. Such automata have one canonical form if they are
isomorphic, and the canonical form of the determinized automaton is the same before and after the
renaming (`renameCanonical_determinize_mapStates`).
-/

namespace FiniteAutomata

open Std

variable {σ τ : Type} [Ord σ] [TransOrd σ] [LawfulEqOrd σ] [Ord τ] [TransOrd τ] [LawfulEqOrd τ]

namespace Automaton

variable {A : Automaton σ} {f : σ → τ} {X Y : FiniteSet σ}

/-! ## Occurring sets of an image -/

/-- What holds of the empty set and of the start set, and stays true under moves on symbols of the
alphabet, holds of every occurring set. -/
theorem Occurs.induction {P : FiniteSet σ → Prop} (hempty : P ∅) (hstart : P A.startSet)
    (hmove : ∀ X, P X → ∀ c ∈ A.alphabet, P (A.move X c)) (hX : A.Occurs X) : P X := by
  obtain rfl | hX := hX
  · exact hempty
  · obtain ⟨-, hreach⟩ := mem_subsets_iff.1 hX
    clear hX
    induction hreach with
    | refl => exact hstart
    | tail _ hstep ih =>
      obtain ⟨⟨c, hc, rfl⟩, -⟩ := mem_moves.1 hstep
      exact hmove _ ih c hc

/-- What an occurring set moves to on a word over the alphabet occurs. -/
theorem Occurs.foldl_move (hX : A.Occurs X) {w : List Char} (hw : ∀ c ∈ w, c ∈ A.alphabet) :
    A.Occurs (w.foldl A.move X) := by
  induction w generalizing X with
  | nil => exact hX
  | cons c w ih =>
    rw [List.forall_mem_cons] at hw
    exact ih (hX.move hw.1) hw.2

/-- Occurring sets consist of states. -/
theorem Occurs.mem_stateSet (hX : A.Occurs X) : ∀ q ∈ X, q ∈ A.stateSet := by
  obtain rfl | hX := hX
  · exact fun q hq => absurd hq ExtTreeSet.not_mem_empty
  · exact mem_allStates_of_mem_subsets hX

/-- The start set of the image is the image of the start set. -/
theorem startSet_mapStates (hf : Set.InjOn f A.stateSet) :
    (A.mapStates f).startSet = FiniteSet.image f A.startSet :=
  close_mapStates hf fun _ => mem_stateSet_of_mem_starts

/-- The sets that occur in the image are the images of those that occur. -/
theorem occurs_mapStates_iff (hf : Set.InjOn f A.stateSet) {Y : FiniteSet τ} :
    (A.mapStates f).Occurs Y ↔ ∃ X, A.Occurs X ∧ FiniteSet.image f X = Y := by
  constructor
  · intro hY
    refine hY.induction (P := fun Y => ∃ X, A.Occurs X ∧ FiniteSet.image f X = Y)
      ⟨∅, .inl rfl, FiniteSet.image_eq_empty_iff.2 rfl⟩
      ⟨A.startSet, A.occurs_startSet, (startSet_mapStates hf).symm⟩ ?_
    rintro _ ⟨X, hX, rfl⟩ c hc
    rw [alphabet_mapStates] at hc
    exact ⟨A.move X c, hX.move hc, (move_mapStates hf hX.mem_stateSet c).symm⟩
  · rintro ⟨X, hX, rfl⟩
    -- The states of the set are part of the invariant, for moves of images to be images of moves.
    refine (hX.induction (P := fun X => (∀ q ∈ X, q ∈ A.stateSet) ∧
      (A.mapStates f).Occurs (FiniteSet.image f X)) ?_ ?_ ?_).2
    · exact ⟨fun q hq => absurd hq ExtTreeSet.not_mem_empty,
        .inl (FiniteSet.image_eq_empty_iff.2 rfl)⟩
    · refine ⟨A.occurs_startSet.mem_stateSet, ?_⟩
      rw [← startSet_mapStates hf]
      exact occurs_startSet _
    · rintro X ⟨hX, himage⟩ c hc
      refine ⟨fun q => mem_allStates_of_mem_move, ?_⟩
      rw [← move_mapStates hf hX]
      exact himage.move (by rwa [alphabet_mapStates])

variable [StateText σ] [StateText τ]

/-! ## The determinized image -/

/-- The state that stands for the image of the set that a state stands for. -/
noncomputable def imageName (A : Automaton σ) (f : σ → τ) (q : String) : String :=
  (FiniteSet.image f (Function.invFunOn FiniteSet.stateName {X | A.Occurs X} q)).stateName

omit [LawfulEqOrd τ] in
/-- The image of the state of a set is the state of the image. -/
theorem NamesDistinct.imageName_stateName (h : A.NamesDistinct) (hX : A.Occurs X) :
    A.imageName f X.stateName = (FiniteSet.image f X).stateName := by
  rw [imageName, h.standsForOne.leftInvOn_invFunOn hX]

/-- Different states have different images. -/
theorem NamesDistinct.injOn_imageName (h : A.NamesDistinct) (hf : Set.InjOn f A.stateSet)
    (h' : (A.mapStates f).NamesDistinct) : Set.InjOn (A.imageName f) A.determinize.stateSet := by
  intro q hq r hr hqr
  obtain ⟨X, hX, rfl⟩ := exists_occurs_of_mem_allStates hq
  obtain ⟨Y, hY, rfl⟩ := exists_occurs_of_mem_allStates hr
  rw [h.imageName_stateName hX, h.imageName_stateName hY] at hqr
  have himage : FiniteSet.image f X = FiniteSet.image f Y :=
    h'.stateName_inj ((occurs_mapStates_iff hf).2 ⟨X, hX, rfl⟩)
      ((occurs_mapStates_iff hf).2 ⟨Y, hY, rfl⟩) hqr
  have hsub : ∀ q, q ∈ X ∨ q ∈ Y → q ∈ A.stateSet :=
    fun q hq => hq.elim (hX.mem_stateSet q) (hY.mem_stateSet q)
  rw [FiniteSet.image_inj (hf.mono hsub) himage]

/-- The image of the transition of a set is the transition of the image. -/
theorem NamesDistinct.map_imageName (h : A.NamesDistinct) (hf : Set.InjOn f A.stateSet)
    (hX : A.Occurs X) {c : Char} (hc : c ∈ A.alphabet) :
    Transition.map (A.imageName f) ⟨X.stateName, .symbol c, (A.move X c).stateName⟩ =
      ⟨(FiniteSet.image f X).stateName, .symbol c,
        ((A.mapStates f).move (FiniteSet.image f X) c).stateName⟩ := by
  rw [Transition.map, h.imageName_stateName hX, h.imageName_stateName (hX.move hc),
    move_mapStates hf hX.mem_stateSet]

/-- The state of an image is final when the state of the set is. -/
theorem NamesDistinct.mem_finals_mapStates_iff (h : A.NamesDistinct)
    (hf : Set.InjOn f A.stateSet) (h' : (A.mapStates f).NamesDistinct) (hX : A.Occurs X) :
    (FiniteSet.image f X).stateName ∈ (A.mapStates f).determinize.finals ↔
      X.stateName ∈ A.determinize.finals := by
  rw [h'.mem_finals_iff ((occurs_mapStates_iff hf).2 ⟨X, hX, rfl⟩), h.mem_finals_iff hX]
  constructor
  · rintro ⟨r', hr', hfinal⟩
    obtain ⟨r, hr, rfl⟩ := FiniteSet.mem_image.1 hr'
    exact ⟨r, hr, (map_mem_finals_iff hf (hX.mem_stateSet r hr)).1 hfinal⟩
  · rintro ⟨r, hr, hfinal⟩
    exact ⟨f r, FiniteSet.mem_image.2 ⟨r, hr, rfl⟩,
      (map_mem_finals_iff hf (hX.mem_stateSet r hr)).2 hfinal⟩

/-- If names tell sets apart before and after an injective renaming, the determinized automaton of
the image is an image of the determinized automaton. -/
theorem NamesDistinct.determinize_mapStates (h : A.NamesDistinct) (hf : Set.InjOn f A.stateSet)
    (h' : (A.mapStates f).NamesDistinct) :
    (A.mapStates f).determinize = A.determinize.mapStates (A.imageName f) := by
  -- Every part of both automata comes from an occurring set, on the left from its image.
  refine eq_iff.2 ⟨?_, ?_, ?_, ?_⟩
  · refine ExtTreeSet.ext_mem fun t => ?_
    rw [mem_transitions_determinize, mem_transitions_mapStates, alphabet_mapStates]
    constructor
    · rintro ⟨Y, hY, c, hc, rfl⟩
      obtain ⟨X, hX, rfl⟩ := (occurs_mapStates_iff hf).1 hY
      exact ⟨_, mem_transitions_determinize.2 ⟨X, hX, c, hc, rfl⟩, h.map_imageName hf hX hc⟩
    · rintro ⟨u, hu, rfl⟩
      obtain ⟨X, hX, c, hc, rfl⟩ := mem_transitions_determinize.1 hu
      exact ⟨_, (occurs_mapStates_iff hf).2 ⟨X, hX, rfl⟩, c, hc, h.map_imageName hf hX hc⟩
  · refine ExtTreeSet.ext_mem fun q => ?_
    have hname := h.imageName_stateName (f := f) A.occurs_startSet
    have hstarts : (A.mapStates f).starts = ∅ ↔ A.starts = ∅ := FiniteSet.image_eq_empty_iff
    rw [mem_starts_determinize, Ne, hstarts, startSet_mapStates hf, ← hname, starts_mapStates,
      FiniteSet.mem_image]
    simp only [mem_starts_determinize, and_assoc, exists_and_left, exists_eq_left]
    exact and_congr_right fun _ => eq_comm
  · refine ExtTreeSet.ext_mem fun q => ?_
    rw [finals_mapStates, FiniteSet.mem_image]
    constructor
    · intro hq
      obtain ⟨Y, hY, rfl⟩ := exists_occurs_of_mem_allStates (mem_stateSet_of_mem_finals hq)
      obtain ⟨X, hX, rfl⟩ := (occurs_mapStates_iff hf).1 hY
      exact ⟨X.stateName, (h.mem_finals_mapStates_iff hf h' hX).1 hq, h.imageName_stateName hX⟩
    · rintro ⟨q, hq, rfl⟩
      obtain ⟨X, hX, rfl⟩ := exists_occurs_of_mem_allStates (mem_stateSet_of_mem_finals hq)
      rw [h.imageName_stateName hX]
      exact (h.mem_finals_mapStates_iff hf h' hX).2 hq
  · rw [alphabet_determinize, alphabet_mapStates, alphabet_mapStates, alphabet_determinize]

/-! ## The shape of a determinized automaton -/

/-- Only sets that the search found are marked as final, and it found none without a start state. -/
theorem starts_ne_empty_of_finals_determinize (h : A.determinize.finals ≠ ∅) : A.starts ≠ ∅ := by
  intro hstarts
  refine h (ExtTreeSet.eq_empty_iff_forall_not_mem.2 fun q hq => ?_)
  obtain ⟨X, hX, -⟩ := List.mem_map.1 (FiniteSet.mem_ofList_iff.1 hq)
  exact (mem_subsets_iff.1 (List.mem_filter.1 hX).1).1 (startSet_eq_empty_iff.2 hstarts)

/-- Some word leads from the start to the state of each set that the search found. -/
theorem exists_leads_determinize (hX : X ∈ A.subsets) :
    ∃ w, A.determinize.Leads A.startSet.stateName w X.stateName := by
  obtain ⟨hstart, hreach⟩ := mem_subsets_iff.1 hX
  clear hX
  induction hreach with
  | refl => exact ⟨[], .nil _⟩
  | @tail X Y hreach hstep ih =>
    obtain ⟨⟨c, hc, rfl⟩, -⟩ := mem_moves.1 hstep
    obtain ⟨w, hw⟩ := ih
    have hX : A.Occurs X := .inr (mem_subsets_iff.2 ⟨hstart, hreach⟩)
    have hlast : (⟨X.stateName, .symbol c, (A.move X c).stateName⟩ : Transition String) ∈
        A.determinize.transitions := mem_transitions_determinize.2 ⟨X, hX, c, hc, rfl⟩
    exact ⟨w ++ [c], hw.trans (.symbol hlast (.nil _))⟩

/-- If names are coherent, the shape of the determinized automaton decides: the trap is the only
state that may not be reached. -/
theorem NamesCoherent.shapeDecides_determinize (h : A.NamesCoherent)
    (htransitions : A.determinize.transitions ≠ ∅) (hfinals : A.determinize.finals ≠ ∅) :
    A.determinize.ShapeDecides A.startSet.stateName where
  mem_starts q := by
    rw [mem_starts_determinize]
    exact and_iff_right (starts_ne_empty_of_finals_determinize hfinals)
  transitions_ne_empty := htransitions
  finals_ne_empty := hfinals
  target_eq := by
    rintro t ht ⟨q, l, r⟩ hu hsource hlabel
    obtain ⟨X, hX, c, hc, rfl⟩ := mem_transitions_determinize.1 ht
    obtain rfl : X.stateName = q := hsource
    obtain rfl : Label.symbol c = l := hlabel
    exact ((h.mem_transitions_iff hX).1 hu).2.symm
  unreached_eq := by
    -- A state that is not reached stands for no set found.
    have htrap {q : String} (hq : q ∈ A.determinize.stateSet)
        (hunreached : ∀ w, ¬A.determinize.Leads A.startSet.stateName w q) : q = trapName := by
      obtain ⟨X, rfl | hX, rfl⟩ := exists_occurs_of_mem_allStates hq
      · exact FiniteSet.stateName_empty
      · obtain ⟨w, hw⟩ := exists_leads_determinize hX
        exact absurd hw (hunreached w)
    intro q hq r hr hq' hr'
    rw [htrap hq hq', htrap hr hr']

/-- An alphabet with a symbol gives the determinized automaton transitions. -/
theorem transitions_determinize_ne_empty {c : Char} (hc : c ∈ A.alphabet) :
    A.determinize.transitions ≠ ∅ :=
  FiniteSet.ne_empty_of_mem
    (mem_transitions_determinize.2 ⟨A.startSet, A.occurs_startSet, c, hc, rfl⟩)

/-- A word over the alphabet that leads from a start state to a final state gives the determinized
automaton a final state. -/
theorem NamesDistinct.finals_determinize_ne_empty (h : A.NamesDistinct) {q r : σ} {w : List Char}
    (hw : ∀ c ∈ w, c ∈ A.alphabet) (hq : q ∈ A.starts) (hr : r ∈ A.finals) (hqr : A.Leads q w r) :
    A.determinize.finals ≠ ∅ :=
  FiniteSet.ne_empty_of_mem <| (h.mem_finals_iff (A.occurs_startSet.foldl_move hw)).2
    ⟨r, mem_foldl_move_startSet.2 ⟨q, hq, hqr⟩, hr⟩

/-! ## Main result -/

/-- If names tell sets apart before and after an injective renaming, the canonical form of the
determinized automaton is the same before and after it. -/
theorem renameCanonical_determinize_mapStates (hf : Set.InjOn f A.stateSet) (h : A.NamesDistinct)
    (h' : (A.mapStates f).NamesDistinct) (htransitions : A.determinize.transitions ≠ ∅)
    (hfinals : A.determinize.finals ≠ ∅) (stem : Char) :
    (A.mapStates f).determinize.renameCanonical stem = A.determinize.renameCanonical stem := by
  have hshape := h.coherent.shapeDecides_determinize htransitions hfinals
  have heq := h.determinize_mapStates hf h'
  have hnameable : (A.determinize.mapStates (A.imageName f)).Nameable :=
    nameable_mapStates_iff.2 hshape.nameable
  have hshape' := h'.coherent.shapeDecides_determinize
    (heq ▸ hnameable.transitions_ne_empty) (heq ▸ hnameable.finals_ne_empty)
  rw [startSet_mapStates hf, ← h.imageName_stateName A.occurs_startSet, heq] at hshape'
  rw [heq]
  exact hshape.renameCanonical_mapStates (h.injOn_imageName hf h') hshape' stem

end Automaton

end FiniteAutomata
