import FiniteAutomata.Automaton.Map
import FiniteAutomata.Proofs.Automaton.Path
import Mathlib.Data.Set.Function

/-!
# Laws of renaming by a function

Renaming twice is renaming by the composition (`mapStates_mapStates`), and only what a function does
on the states of the automaton matters (`mapStates_congr`). A function that is injective on the
states neither merges states nor joins their transitions, so words lead from image to image as they
do between the states (`leads_mapStates_iff`), and moves of images are images of moves
(`move_mapStates`).

An isomorphism of two automata maps the states of one to those of the other one by one, and what
they are part of with them. Automata with one alphabet are isomorphic when one is the other renamed
by a function that is injective on its states (`isIsomorphism_iff`).
-/

namespace FiniteAutomata.Automaton

open Std

variable {σ τ υ : Type} [Ord σ] [TransOrd σ] [Ord τ] [TransOrd τ] [LawfulEqOrd τ] [Ord υ]
  [TransOrd υ] [LawfulEqOrd υ] {A : Automaton σ} {f g : σ → τ}

/-- The states of an automaton, marked ones included, as a set. -/
def stateSet (A : Automaton σ) : Set σ := {q | q ∈ A.allStates}

/-- The ends of a transition are states. -/
theorem mem_stateSet_of_mem_transitions {t : Transition σ} (h : t ∈ A.transitions) :
    t.source ∈ A.stateSet ∧ t.target ∈ A.stateSet :=
  ⟨mem_allStates.2 (.inl (mem_states.2 ⟨t, h, .inl rfl⟩)),
    mem_allStates.2 (.inl (mem_states.2 ⟨t, h, .inr rfl⟩))⟩

/-- Start states are states. -/
theorem mem_stateSet_of_mem_starts {q : σ} (h : q ∈ A.starts) : q ∈ A.stateSet :=
  mem_allStates.2 (.inr (.inl h))

/-- Final states are states. -/
theorem mem_stateSet_of_mem_finals {q : σ} (h : q ∈ A.finals) : q ∈ A.stateSet :=
  mem_allStates.2 (.inr (.inr h))

/-- A word leads from a state to states. -/
theorem mem_stateSet_of_leads {q r : σ} {w : List Char} (hq : q ∈ A.stateSet)
    (h : A.Leads q w r) : r ∈ A.stateSet := by
  obtain rfl | hr := eq_or_mem_states_of_leads h
  · exact hq
  · exact mem_allStates.2 (.inl hr)

variable [LawfulEqOrd σ]

/-- The states are the images of the states. -/
theorem mem_allStates_mapStates {r : τ} :
    r ∈ (A.mapStates f).allStates ↔ ∃ q ∈ A.allStates, f q = r := by
  simp only [mem_allStates, mem_states, mem_transitions_mapStates, starts_mapStates,
    finals_mapStates, FiniteSet.mem_image]
  constructor
  · rintro (⟨t, ⟨u, hu, rfl⟩, rfl | rfl⟩ | ⟨q, hq, rfl⟩ | ⟨q, hq, rfl⟩)
    · exact ⟨u.source, .inl ⟨u, hu, .inl rfl⟩, rfl⟩
    · exact ⟨u.target, .inl ⟨u, hu, .inr rfl⟩, rfl⟩
    · exact ⟨q, .inr (.inl hq), rfl⟩
    · exact ⟨q, .inr (.inr hq), rfl⟩
  · rintro ⟨q, ⟨u, hu, rfl | rfl⟩ | hq | hq, rfl⟩
    · exact .inl ⟨u.map f, ⟨u, hu, rfl⟩, .inl rfl⟩
    · exact .inl ⟨u.map f, ⟨u, hu, rfl⟩, .inr rfl⟩
    · exact .inr (.inl ⟨q, hq, rfl⟩)
    · exact .inr (.inr ⟨q, hq, rfl⟩)

/-- Two functions that agree on the states rename alike. -/
theorem mapStates_congr (h : ∀ q ∈ A.stateSet, f q = g q) : A.mapStates f = A.mapStates g := by
  refine eq_iff.2 ⟨?_, ?_, ?_, ?_⟩
  · refine ExtTreeSet.ext_mem fun t => ?_
    rw [mem_transitions_mapStates, mem_transitions_mapStates]
    refine exists_congr fun u => and_congr_right fun hu => ?_
    have hends := mem_stateSet_of_mem_transitions hu
    rw [Transition.map, Transition.map, h _ hends.1, h _ hends.2]
  · refine ExtTreeSet.ext_mem fun r => ?_
    rw [starts_mapStates, starts_mapStates, FiniteSet.mem_image, FiniteSet.mem_image]
    refine exists_congr fun q => and_congr_right fun hq => ?_
    rw [h q (mem_stateSet_of_mem_starts hq)]
  · refine ExtTreeSet.ext_mem fun r => ?_
    rw [finals_mapStates, finals_mapStates, FiniteSet.mem_image, FiniteSet.mem_image]
    refine exists_congr fun q => and_congr_right fun hq => ?_
    rw [h q (mem_stateSet_of_mem_finals hq)]
  · rw [alphabet_mapStates, alphabet_mapStates]

/-- Renaming twice is renaming by the composition. -/
theorem mapStates_mapStates (A : Automaton σ) (f : σ → τ) (g : τ → υ) :
    (A.mapStates f).mapStates g = A.mapStates (g ∘ f) := by
  refine eq_iff.2 ⟨?_, ?_, ?_, ?_⟩
  · refine ExtTreeSet.ext_mem fun t => ?_
    simp only [mem_transitions_mapStates]
    constructor
    · rintro ⟨_, ⟨u, hu, rfl⟩, rfl⟩
      exact ⟨u, hu, rfl⟩
    · rintro ⟨u, hu, rfl⟩
      exact ⟨_, ⟨u, hu, rfl⟩, rfl⟩
  · refine ExtTreeSet.ext_mem fun r => ?_
    simp [starts_mapStates, FiniteSet.mem_image]
  · refine ExtTreeSet.ext_mem fun r => ?_
    simp [finals_mapStates, FiniteSet.mem_image]
  · simp only [alphabet_mapStates]

/-- An injective renaming takes the targets of a state to those of its image. -/
theorem mem_targets_mapStates (hf : Set.InjOn f A.stateSet) {q : σ} {l : Label} {r : τ}
    (hq : q ∈ A.stateSet) :
    r ∈ (A.mapStates f).targets (f q) l ↔ ∃ s ∈ A.targets q l, f s = r := by
  simp only [mem_targets]
  constructor
  · intro h
    obtain ⟨u, hu, heq⟩ := mem_transitions_mapStates.1 h
    obtain ⟨hsource, hlabel, rfl⟩ := Transition.mk.injEq .. ▸ heq
    obtain rfl := hf (mem_stateSet_of_mem_transitions hu).1 hq hsource
    exact ⟨u.target, hlabel ▸ hu, rfl⟩
  · rintro ⟨s, hs, rfl⟩
    exact mem_transitions_mapStates.2 ⟨_, hs, rfl⟩

/-- An injective renaming takes no other state to a final one. -/
theorem map_mem_finals_iff (hf : Set.InjOn f A.stateSet) {q : σ} (hq : q ∈ A.stateSet) :
    f q ∈ (A.mapStates f).finals ↔ q ∈ A.finals := by
  have hsub : {q | q ∈ A.finals} ⊆ A.stateSet := fun _ => mem_stateSet_of_mem_finals
  rw [finals_mapStates, FiniteSet.mem_image]
  exact hf.mem_image_iff hsub hq

/-- A path from an image leads to an image, and comes from a path between the states. -/
theorem exists_leads_of_leads_mapStates (hf : Set.InjOn f A.stateSet) {q : σ} {w : List Char}
    {r' : τ} (hq : q ∈ A.stateSet) (h : (A.mapStates f).Leads (f q) w r') :
    ∃ r ∈ A.stateSet, f r = r' ∧ A.Leads q w r := by
  -- A transition from the image of a state is the image of a transition from this state.
  have hstep {q : σ} {l : Label} {p' : τ} (hq : q ∈ A.stateSet)
      (ht : (⟨f q, l, p'⟩ : Transition τ) ∈ (A.mapStates f).transitions) :
      ∃ p ∈ A.stateSet, f p = p' ∧ (⟨q, l, p⟩ : Transition σ) ∈ A.transitions := by
    obtain ⟨p, hp, rfl⟩ := (mem_targets_mapStates hf hq).1 (mem_targets.2 ht)
    have ht := mem_targets.1 hp
    exact ⟨p, (mem_stateSet_of_mem_transitions ht).2, rfl, ht⟩
  generalize hq' : f q = q' at h
  induction h generalizing q with
  | nil => exact ⟨q, hq, hq', .nil q⟩
  | epsilon t _ ih =>
    obtain ⟨p, hp, hp', ht⟩ := hstep hq (hq' ▸ t)
    obtain ⟨r, hr, hr', hpr⟩ := ih hp hp'
    exact ⟨r, hr, hr', .epsilon ht hpr⟩
  | symbol t _ ih =>
    obtain ⟨p, hp, hp', ht⟩ := hstep hq (hq' ▸ t)
    obtain ⟨r, hr, hr', hpr⟩ := ih hp hp'
    exact ⟨r, hr, hr', .symbol ht hpr⟩

/-- A word that leads from a state to a state leads from image to image. -/
theorem leads_mapStates {q r : σ} {w : List Char} (h : A.Leads q w r) :
    (A.mapStates f).Leads (f q) w (f r) := by
  induction h with
  | nil q => exact .nil (f q)
  | epsilon t _ ih => exact .epsilon (mem_transitions_mapStates.2 ⟨_, t, rfl⟩) ih
  | symbol t _ ih => exact .symbol (mem_transitions_mapStates.2 ⟨_, t, rfl⟩) ih

/-- A word leads from image to image under an injective renaming as it does between the states. -/
theorem leads_mapStates_iff (hf : Set.InjOn f A.stateSet) {q r : σ} {w : List Char}
    (hq : q ∈ A.stateSet) (hr : r ∈ A.stateSet) :
    (A.mapStates f).Leads (f q) w (f r) ↔ A.Leads q w r := by
  refine ⟨fun h => ?_, leads_mapStates⟩
  obtain ⟨r', hr', heq, h⟩ := exists_leads_of_leads_mapStates hf hq h
  rwa [← hf hr' hr heq]

/-- The states that a word leads to from the images of some states are the images of those that it
leads to from the states. -/
theorem exists_leads_mapStates_iff (hf : Set.InjOn f A.stateSet) {X : FiniteSet σ}
    (hX : ∀ q ∈ X, q ∈ A.stateSet) {w : List Char} {r' : τ} :
    (∃ q' ∈ FiniteSet.image f X, (A.mapStates f).Leads q' w r') ↔
      ∃ r, (∃ q ∈ X, A.Leads q w r) ∧ f r = r' := by
  constructor
  · rintro ⟨q', hq', h⟩
    obtain ⟨q, hq, rfl⟩ := FiniteSet.mem_image.1 hq'
    obtain ⟨r, -, hr, hqr⟩ := exists_leads_of_leads_mapStates hf (hX q hq) h
    exact ⟨r, ⟨q, hq, hqr⟩, hr⟩
  · rintro ⟨r, ⟨q, hq, hqr⟩, rfl⟩
    have hr : r ∈ A.stateSet := mem_stateSet_of_leads (hX q hq) hqr
    exact ⟨f q, FiniteSet.mem_image.2 ⟨q, hq, rfl⟩, (leads_mapStates_iff hf (hX q hq) hr).2 hqr⟩

/-- The closure of an image is the image of the closure. -/
theorem close_mapStates (hf : Set.InjOn f A.stateSet) {X : FiniteSet σ}
    (hX : ∀ q ∈ X, q ∈ A.stateSet) :
    (A.mapStates f).close (FiniteSet.image f X) = FiniteSet.image f (A.close X) := by
  refine ExtTreeSet.ext_mem fun r' => ?_
  simp only [mem_close, FiniteSet.mem_image (s := A.close X), exists_leads_mapStates_iff hf hX]

/-- An image moves to the image of what the set moves to. -/
theorem move_mapStates (hf : Set.InjOn f A.stateSet) {X : FiniteSet σ}
    (hX : ∀ q ∈ X, q ∈ A.stateSet) (c : Char) :
    (A.mapStates f).move (FiniteSet.image f X) c = FiniteSet.image f (A.move X c) := by
  refine ExtTreeSet.ext_mem fun r' => ?_
  simp only [mem_move, FiniteSet.mem_image (s := A.move X c), exists_leads_mapStates_iff hf hX]

/-- The image of a state moves to the images of what the state moves to. -/
theorem moveFrom_mapStates (hf : Set.InjOn f A.stateSet) {q : σ} (hq : q ∈ A.stateSet) (c : Char) :
    (A.mapStates f).moveFrom (f q) c = FiniteSet.image f (A.moveFrom q c) := by
  have himage : (ExtTreeSet.ofList [f q] : FiniteSet τ) =
      FiniteSet.image f (ExtTreeSet.ofList [q]) := by
    refine ExtTreeSet.ext_mem fun r => ?_
    simp only [FiniteSet.mem_image, FiniteSet.mem_ofList_iff, List.mem_singleton, exists_eq_left]
    exact eq_comm
  rw [moveFrom, himage]
  refine move_mapStates hf (fun r hr => ?_) c
  rw [FiniteSet.mem_ofList_iff, List.mem_singleton] at hr
  exact hr ▸ hq

/-! ## Isomorphisms -/

/-- The states of the image are the images of the states. -/
theorem stateSet_mapStates (A : Automaton σ) (f : σ → τ) :
    (A.mapStates f).stateSet = f '' A.stateSet :=
  Set.ext fun _ => mem_allStates_mapStates

/-- Renaming each state to itself changes nothing. -/
theorem mapStates_id (A : Automaton σ) : A.mapStates id = A := by
  refine eq_iff.2 ⟨?_, ?_, ?_, alphabet_mapStates A id⟩
  · refine ExtTreeSet.ext_mem fun t => mem_transitions_mapStates.trans ?_
    exact exists_eq_right
  · exact ExtTreeSet.ext_mem fun q => FiniteSet.mem_image.trans exists_eq_right
  · exact ExtTreeSet.ext_mem fun q => FiniteSet.mem_image.trans exists_eq_right

/-- A renaming that is injective on the states can be undone. -/
theorem mapStates_invFunOn [Nonempty σ] (hf : Set.InjOn f A.stateSet) :
    (A.mapStates f).mapStates (Function.invFunOn f A.stateSet) = A := by
  rw [mapStates_mapStates]
  calc A.mapStates (Function.invFunOn f A.stateSet ∘ f)
    _ = A.mapStates id := mapStates_congr fun _ hq => hf.leftInvOn_invFunOn hq
    _ = A := A.mapStates_id

/-- A function is an isomorphism if it maps states to states one by one, and transitions, start
states and final states to those of the other automaton, all of which it gives. -/
structure IsIsomorphism (A : Automaton σ) (B : Automaton τ) (f : σ → τ) : Prop where
  /-- The states correspond one by one, marked ones included that no transition touches. -/
  bijOn : Set.BijOn f A.stateSet B.stateSet
  /-- The transitions are the images of the transitions. -/
  mem_transitions : ∀ t, t ∈ B.transitions ↔ ∃ u ∈ A.transitions, u.map f = t
  /-- The start states are the images of the start states. -/
  mem_starts : ∀ r, r ∈ B.starts ↔ ∃ q ∈ A.starts, f q = r
  /-- The final states are the images of the final states. -/
  mem_finals : ∀ r, r ∈ B.finals ↔ ∃ q ∈ A.finals, f q = r

/-- An isomorphism to an automaton with the same alphabet is an injective renaming. -/
theorem isIsomorphism_iff {B : Automaton τ} : A.alphabet = B.alphabet ∧ IsIsomorphism A B f ↔
    Set.InjOn f A.stateSet ∧ A.mapStates f = B := by
  constructor
  · rintro ⟨halphabet, h⟩
    refine ⟨h.bijOn.injOn, eq_iff.2 ⟨?_, ?_, ?_, (alphabet_mapStates A f).trans halphabet⟩⟩
    · exact ExtTreeSet.ext_mem fun t => mem_transitions_mapStates.trans (h.mem_transitions t).symm
    · exact ExtTreeSet.ext_mem fun r => FiniteSet.mem_image.trans (h.mem_starts r).symm
    · exact ExtTreeSet.ext_mem fun r => FiniteSet.mem_image.trans (h.mem_finals r).symm
  · rintro ⟨hf, rfl⟩
    exact ⟨(alphabet_mapStates A f).symm,
      { bijOn := A.stateSet_mapStates f ▸ hf.bijOn_image
        mem_transitions := fun t => mem_transitions_mapStates
        mem_starts := fun r => FiniteSet.mem_image
        mem_finals := fun r => FiniteSet.mem_image }⟩

/-- Two automata that injective renamings make equal are isomorphic and have the same alphabet. -/
theorem exists_isIsomorphism_of_mapStates_eq [Nonempty τ] {B : Automaton τ} {f : σ → υ} {g : τ → υ}
    (hf : Set.InjOn f A.stateSet) (hg : Set.InjOn g B.stateSet)
    (h : A.mapStates f = B.mapStates g) :
    A.alphabet = B.alphabet ∧ ∃ f, IsIsomorphism A B f := by
  -- The second renaming is undone after the first one.
  let back := Function.invFunOn g B.stateSet
  have hback : Set.InjOn back (f '' A.stateSet) := by
    rw [← stateSet_mapStates, h, stateSet_mapStates]
    exact Function.invFunOn_injOn_image g B.stateSet
  have hB : A.mapStates (back ∘ f) = B := by
    rw [← mapStates_mapStates, h]
    exact mapStates_invFunOn hg
  obtain ⟨halphabet, hiso⟩ :=
    isIsomorphism_iff.2 ⟨hback.comp hf fun _ hq => Set.mem_image_of_mem f hq, hB⟩
  exact ⟨halphabet, back ∘ f, hiso⟩

end FiniteAutomata.Automaton
