import FiniteAutomata.Proofs.Automaton.CanonicalOrder
import FiniteAutomata.Proofs.Namer

/-!
# Canonical renaming

Along the canonical order, the canonical names are those that a namer hands out, in turn
(`map_canonicalName_canonicalOrder`). Everything about the names of an automaton that is renamed
follows from this: they are as many as the states and tell these apart, so the renamed automaton is
isomorphic to the automaton (`exists_isIsomorphism_renameCanonical`), and its least start state is
the one that got the first name.

Whoever knows the canonical order of an automaton knows its canonical names. A renaming whose image
has the image of the canonical order as its own is therefore lost in the canonical renaming that
comes after it (`renameCanonical_mapStates`). Names of one namer sort as they were handed out, so a
canonical renaming is such a renaming (`renameCanonical_renameCanonical`).
-/

namespace FiniteAutomata.Automaton

open Std

variable {σ τ : Type} [Ord σ] [TransOrd σ] [Ord τ] [TransOrd τ] {A : Automaton σ}

/-! ## Start states -/

/-- The start of a run is the least start state. -/
theorem startState?_eq_some_iff [LawfulEqOrd σ] {start : σ} : A.startState? = some start ↔
    start ∈ A.starts ∧ ∀ q ∈ A.starts, (compare start q).isLE := by
  rw [startState?, ← ExtTreeSet.min?_eq_head?_toList]
  exact ExtTreeSet.min?_eq_some_iff_mem_and_forall

/-- A run starts from a state. -/
theorem mem_stateSet_of_startState? [LawfulEqOrd σ] {start : σ}
    (hstart : A.startState? = some start) : start ∈ A.stateSet :=
  mem_stateSet_of_mem_starts (startState?_eq_some_iff.1 hstart).1

/-- A run has nowhere to start without a start state. -/
theorem startState?_eq_none_iff : A.startState? = none ↔ A.starts = ∅ := by
  rw [startState?, ← ExtTreeSet.min?_eq_head?_toList, ExtTreeSet.min?_eq_none_iff]

/-! ## The names of the states -/

/-- An automaton whose states get new names has a start state, a transition and a final state. -/
structure Nameable (A : Automaton σ) : Prop where
  /-- Some state is a start state. -/
  starts_ne_empty : A.starts ≠ ∅
  /-- There is a transition. -/
  transitions_ne_empty : A.transitions ≠ ∅
  /-- Some state is final. -/
  finals_ne_empty : A.finals ≠ ∅

/-- A nameable automaton has a least start state. -/
theorem Nameable.exists_startState? (hA : A.Nameable) : ∃ start, A.startState? = some start := by
  rw [← Option.ne_none_iff_exists']
  exact mt startState?_eq_none_iff.1 hA.starts_ne_empty

/-- A function renames an automaton with a start state, a transition and a final state to one with
these, and no other automaton. -/
theorem nameable_mapStates_iff [LawfulEqOrd σ] [LawfulEqOrd τ] {f : σ → τ} :
    (A.mapStates f).Nameable ↔ A.Nameable := by
  have hstarts : (A.mapStates f).starts = ∅ ↔ A.starts = ∅ := FiniteSet.image_eq_empty_iff
  have htransitions : (A.mapStates f).transitions = ∅ ↔ A.transitions = ∅ := by
    simp [ExtTreeSet.eq_empty_iff_forall_not_mem, mem_transitions_mapStates]
  have hfinals : (A.mapStates f).finals = ∅ ↔ A.finals = ∅ := FiniteSet.image_eq_empty_iff
  constructor
  · rintro ⟨hs, ht, hf⟩
    exact ⟨mt hstarts.2 hs, mt htransitions.2 ht, mt hfinals.2 hf⟩
  · rintro ⟨hs, ht, hf⟩
    exact ⟨mt hstarts.1 hs, mt htransitions.1 ht, mt hfinals.1 hf⟩

variable [StateText σ] [StateText τ] {start : σ} {stem : Char}

/-- The canonical name of a state. States that have none would keep their texts. -/
def canonicalName (A : Automaton σ) (start : σ) (stem : Char) (q : σ) : String :=
  (A.canonicalNames start stem).getD q (StateText.text q)

/-- The states of a nameable automaton are renamed to their canonical names from the start. -/
theorem Nameable.renameCanonical_eq (hA : A.Nameable) (hstart : A.startState? = some start)
    (stem : Char) : A.renameCanonical stem = A.mapStates (A.canonicalName start stem) := by
  have hempty : ¬ (A.transitions.isEmpty || A.finals.isEmpty) := by
    simp [hA.transitions_ne_empty, hA.finals_ne_empty]
  rw [renameCanonical, hstart]
  exact if_neg hempty

/-- The states of another automaton keep their texts. -/
theorem renameCanonical_of_not_nameable (hA : ¬ A.Nameable) (stem : Char) :
    A.renameCanonical stem = A.mapStates StateText.text := by
  rw [renameCanonical]
  cases hstart : A.startState? with
  | none => rfl
  | some start =>
    refine if_pos ?_
    rw [Bool.or_eq_true, ExtTreeSet.isEmpty_iff, ExtTreeSet.isEmpty_iff]
    by_contra! hne
    refine hA ⟨fun hstarts => ?_, hne.1, hne.2⟩
    rw [startState?_eq_none_iff.2 hstarts] at hstart
    cases hstart

variable [LawfulEqOrd σ] [LawfulEqOrd τ]

/-- Along the canonical order the names are handed out in turn. -/
theorem map_canonicalName_canonicalOrder (A : Automaton σ) (start : σ) (stem : Char) :
    (A.canonicalOrder start).map (A.canonicalName start stem) =
      (List.range (A.canonicalOrder start).length).map (Namer.nameOf stem) := by
  refine List.ext_getElem (by simp) fun n hn _ => ?_
  rw [List.length_map] at hn
  rw [List.getElem_map, List.getElem_map, List.getElem_range]
  -- No state is paired with two numbers, so a state is looked up at its place in the order.
  refine ExtTreeMap.getD_ofList_of_mem ReflCmp.compare_self ?_ ?_
  · rw [List.pairwise_map, ← List.pairwise_map (f := Prod.fst)
      (R := fun q r : σ => ¬compare q r = .eq), List.zipIdx_map_fst]
    exact (A.nodup_canonicalOrder start).imp fun hne heq => hne (LawfulEqOrd.eq_of_compare heq)
  · exact List.mem_map_of_mem (List.mk_mem_zipIdx_iff_getElem?.2 (List.getElem?_eq_getElem hn))

/-- There are as many names as states. -/
theorem length_canonicalOrder (hstart : start ∈ A.stateSet) :
    (A.canonicalOrder start).length = A.allStates.size := by
  rw [← ExtTreeSet.length_toList]
  refine List.Perm.length_eq ?_
  rw [List.perm_ext_iff_of_nodup (A.nodup_canonicalOrder start) (FiniteSet.nodup_toList _)]
  exact fun q => (mem_canonicalOrder hstart).trans ExtTreeSet.mem_toList.symm

/-- Different states get different names. -/
theorem injOn_canonicalName (hstart : start ∈ A.stateSet) :
    Set.InjOn (A.canonicalName start stem) A.stateSet := by
  have hnodup : ((A.canonicalOrder start).map (A.canonicalName start stem)).Nodup := by
    rw [map_canonicalName_canonicalOrder]
    exact List.nodup_range.map fun m n => Namer.nameOf_inj.1
  intro q hq r hr
  exact List.inj_on_of_nodup_map hnodup ((mem_canonicalOrder hstart).2 hq)
    ((mem_canonicalOrder hstart).2 hr)

/-- The names that are given are the first ones of the namer. -/
theorem image_canonicalName (hstart : start ∈ A.stateSet) :
    A.canonicalName start stem '' A.stateSet =
      {name | ∃ n < A.allStates.size, Namer.nameOf stem n = name} := by
  ext name
  calc name ∈ A.canonicalName start stem '' A.stateSet
    _ ↔ name ∈ (A.canonicalOrder start).map (A.canonicalName start stem) := by
      simp only [List.mem_map, mem_canonicalOrder hstart, Set.mem_image]
    _ ↔ ∃ n < A.allStates.size, Namer.nameOf stem n = name := by
      simp only [map_canonicalName_canonicalOrder, length_canonicalOrder hstart, List.mem_map,
        List.mem_range]

/-- The last name goes to the last state of the canonical order. -/
theorem exists_canonicalName_eq {order : List σ} {last q : σ} (hstart : start ∈ A.stateSet)
    (horder : A.canonicalOrder start = order ++ [last]) (hq : q ∈ A.stateSet) :
    ∃ n < A.allStates.size, A.canonicalName start stem q = Namer.nameOf stem n ∧
      (n + 1 = A.allStates.size ↔ q = last) := by
  have hsize : A.allStates.size = order.length + 1 := by
    rw [← length_canonicalOrder hstart, horder, List.length_append, List.length_singleton]
  have hnames := map_canonicalName_canonicalOrder A start stem
  rw [length_canonicalOrder hstart, horder, hsize, List.range_succ, List.map_append,
    List.map_append] at hnames
  obtain ⟨hinit, hlast⟩ := List.append_inj hnames (by simp)
  have hmem := (mem_canonicalOrder hstart).2 hq
  rw [horder, List.mem_append, List.mem_singleton] at hmem
  rcases hmem with hmem | rfl
  · have hname := List.mem_map_of_mem (f := A.canonicalName start stem) hmem
    rw [hinit, List.mem_map] at hname
    obtain ⟨n, hn, hname⟩ := hname
    have hne : q ≠ last := by
      rintro rfl
      have hnodup := A.nodup_canonicalOrder start
      rw [horder, List.nodup_append] at hnodup
      exact hnodup.2.2 q hmem q (.head _) rfl
    rw [List.mem_range] at hn
    exact ⟨n, by omega, hname.symm, iff_of_false (by omega) hne⟩
  · exact ⟨order.length, by omega, List.singleton_inj.1 hlast, iff_of_true hsize.symm rfl⟩

/-- The first name goes to the start. -/
theorem canonicalName_start (A : Automaton σ) (start : σ) (stem : Char) :
    A.canonicalName start stem start = Namer.nameOf stem 0 := by
  have h := congrArg List.head? (A.map_canonicalName_canonicalOrder start stem)
  obtain ⟨rest, hrest⟩ := List.head?_eq_some_iff.1 (A.head?_canonicalOrder start)
  rw [hrest] at h
  simpa [List.head?_range] using h

/-- Among start states with names of one stem the one with the first name is the least. -/
theorem startState?_eq_nameOf_zero {B : Automaton String} (hzero : Namer.nameOf stem 0 ∈ B.starts)
    (hnames : ∀ name ∈ B.starts, ∃ n, Namer.nameOf stem n = name) :
    B.startState? = some (Namer.nameOf stem 0) := by
  rw [startState?_eq_some_iff]
  refine ⟨hzero, fun name hname => ?_⟩
  obtain ⟨n, rfl⟩ := hnames name hname
  -- No number comes before zero, not even as text.
  obtain rfl | hpos := Nat.eq_zero_or_pos n
  · exact ReflCmp.isLE_rfl
  · rw [Namer.compare_nameOf_zero stem hpos]
    rfl

/-- The least start state of a renamed automaton is the one with the first name. -/
theorem startState?_mapStates_canonicalName (hstart : A.startState? = some start) :
    (A.mapStates (A.canonicalName start stem)).startState? = some (Namer.nameOf stem 0) := by
  have hmem := (startState?_eq_some_iff.1 hstart).1
  refine startState?_eq_nameOf_zero ?_ fun name hname => ?_
  · exact FiniteSet.mem_image.2 ⟨start, hmem, A.canonicalName_start start stem⟩
  · obtain ⟨q, hq, rfl⟩ := FiniteSet.mem_image.1 hname
    obtain ⟨n, -, hn⟩ := (image_canonicalName (mem_stateSet_of_mem_starts hmem)).subset
      (Set.mem_image_of_mem (A.canonicalName start stem) (mem_stateSet_of_mem_starts hq))
    exact ⟨n, hn⟩

/-! ## Renaming is an isomorphism -/

/-- Canonical renaming gives an isomorphic automaton, whose states have the first names of the
namer. Its runs start from the state with the very first one. -/
theorem exists_isIsomorphism_renameCanonical (A : Automaton σ) (hA : A.Nameable) (stem : Char) :
    ∃ f : σ → String, IsIsomorphism A (A.renameCanonical stem) f ∧
      f '' A.stateSet = {name | ∃ n < A.allStates.size, Namer.nameOf stem n = name} ∧
      (A.renameCanonical stem).alphabet = A.alphabet ∧
      ∃ start, A.startState? = some start ∧ f start = Namer.nameOf stem 0 ∧
        (A.renameCanonical stem).startState? = some (Namer.nameOf stem 0) := by
  obtain ⟨start, hstart⟩ := hA.exists_startState?
  have hmem := mem_stateSet_of_startState? hstart
  obtain ⟨halphabet, hiso⟩ := isIsomorphism_iff.2
    ⟨injOn_canonicalName hmem, (hA.renameCanonical_eq hstart stem).symm⟩
  refine ⟨A.canonicalName start stem, hiso, image_canonicalName hmem, halphabet.symm, start, hstart,
    A.canonicalName_start start stem, ?_⟩
  rw [hA.renameCanonical_eq hstart]
  exact startState?_mapStates_canonicalName hstart

/-- An automaton with two start states, a trap, an epsilon transition, two targets of one label, a
part that is not reached and a final state that no transition touches. -/
def mixedAutomaton : Automaton Int :=
  (((((empty.setAlphabet (ExtTreeSet.ofList ['a', 'b'])).addTransitions
    [⟨10, .symbol 'a', 9⟩, ⟨10, .symbol 'a', 100⟩, ⟨10, .symbol 'b', 7⟩, ⟨7, .symbol 'b', 7⟩,
      ⟨9, .epsilon, 2⟩, ⟨50, .symbol 'a', 51⟩]).markStart 30).markStart 10).markFinal 2).markFinal 40

/-- Its nine states get nine names, and the least start state gets the first one. -/
theorem exists_isIsomorphism_mixedAutomaton : mixedAutomaton.Nameable ∧
    ∃ f : Int → String, IsIsomorphism mixedAutomaton (mixedAutomaton.renameCanonical 'q') f ∧
      f '' mixedAutomaton.stateSet = {name | ∃ n < 9, Namer.nameOf 'q' n = name} ∧
      (mixedAutomaton.renameCanonical 'q').alphabet = mixedAutomaton.alphabet ∧
      ∃ start, mixedAutomaton.startState? = some start ∧ f start = Namer.nameOf 'q' 0 ∧
        (mixedAutomaton.renameCanonical 'q').startState? = some (Namer.nameOf 'q' 0) := by
  have hA : mixedAutomaton.Nameable := ⟨by decide +kernel, by decide +kernel, by decide +kernel⟩
  have hsize : mixedAutomaton.allStates.size = 9 := by decide +kernel
  have h := exists_isIsomorphism_renameCanonical mixedAutomaton hA 'q'
  rw [hsize] at h
  exact ⟨hA, h⟩

/-! ## Renaming twice -/

variable {f : σ → τ}

/-- If the canonical order of an image is the image of the canonical order, each image has the
canonical name of its state. -/
theorem canonicalName_mapStates (hstart : start ∈ A.stateSet)
    (horder : (A.mapStates f).canonicalOrder (f start) = (A.canonicalOrder start).map f) {q : σ}
    (hq : q ∈ A.stateSet) :
    (A.mapStates f).canonicalName (f start) stem (f q) = A.canonicalName start stem q := by
  have hnames :=
    calc (A.canonicalOrder start).map ((A.mapStates f).canonicalName (f start) stem ∘ f)
      _ = ((A.mapStates f).canonicalOrder (f start)).map
          ((A.mapStates f).canonicalName (f start) stem) := by rw [horder, List.map_map]
      _ = (A.canonicalOrder start).map (A.canonicalName start stem) := by
        rw [map_canonicalName_canonicalOrder, map_canonicalName_canonicalOrder, horder,
          List.length_map]
  exact List.map_inj_left.1 hnames q ((mem_canonicalOrder hstart).2 hq)

/-- A renaming that keeps the least start state and the canonical order is lost in the canonical
renaming that comes after it. -/
theorem Nameable.renameCanonical_mapStates (hA : A.Nameable) (hstart : A.startState? = some start)
    (himage : (A.mapStates f).startState? = some (f start))
    (horder : (A.mapStates f).canonicalOrder (f start) = (A.canonicalOrder start).map f)
    (stem : Char) : (A.mapStates f).renameCanonical stem = A.renameCanonical stem := by
  have hmem := mem_stateSet_of_startState? hstart
  rw [(nameable_mapStates_iff.2 hA).renameCanonical_eq himage, hA.renameCanonical_eq hstart,
    mapStates_mapStates]
  exact mapStates_congr fun q hq => canonicalName_mapStates hmem horder hq

/-- Sorting by names puts names of one stem in the order of their numbers. -/
theorem byName_nameOf (stem : Char) {m n : ℕ} (h : m < n) :
    byName (Namer.nameOf stem m) (Namer.nameOf stem n) = .lt := by
  have htext : nameOrder (Namer.nameOf stem m) (Namer.nameOf stem n) = .lt :=
    Namer.textOrder_nameOf stem h
  rw [byName, compareLex, htext]
  rfl

/-- The canonical order of an automaton with canonical names goes by these names. -/
theorem canonicalOrder_mapStates_canonicalName (hstart : start ∈ A.stateSet) :
    (A.mapStates (A.canonicalName start stem)).canonicalOrder (A.canonicalName start stem start) =
      (A.canonicalOrder start).map (A.canonicalName start stem) := by
  have hasymm := FiniteSet.asymm_lt (byName : String → String → Ordering)
  refine canonicalOrder_mapStates (injOn_canonicalName hstart) hstart
    ⟨fun _ _ _ => pairwise_sortByName _, pairwise_sortByName _⟩ ?_
  -- Names come in the order of their numbers, in which they were handed out.
  rw [map_canonicalName_canonicalOrder, List.pairwise_map]
  exact List.pairwise_lt_range.imp (byName_nameOf stem)

/-- A canonical renaming is lost in the one that comes after it. -/
theorem renameCanonical_renameCanonical (A : Automaton σ) (stem stem' : Char) :
    (A.renameCanonical stem).renameCanonical stem' = A.renameCanonical stem' := by
  by_cases hA : A.Nameable
  · obtain ⟨start, hstart⟩ := hA.exists_startState?
    have hmem := mem_stateSet_of_startState? hstart
    rw [hA.renameCanonical_eq hstart stem]
    refine hA.renameCanonical_mapStates hstart ?_ (canonicalOrder_mapStates_canonicalName hmem) stem'
    rw [canonicalName_start]
    exact startState?_mapStates_canonicalName hstart
  · -- Both times the states keep their texts.
    rw [renameCanonical_of_not_nameable hA, renameCanonical_of_not_nameable hA,
      renameCanonical_of_not_nameable (mt nameable_mapStates_iff.1 hA), mapStates_mapStates]
    rfl

/-- The names of the mixed automaton sort otherwise than its numbers, and still the first renaming
is lost in the second. -/
theorem renameCanonical_renameCanonical_mixedAutomaton :
    (mixedAutomaton.renameCanonical 'S').renameCanonical 'q' = mixedAutomaton.renameCanonical 'q' :=
  renameCanonical_renameCanonical mixedAutomaton 'S' 'q'

end FiniteAutomata.Automaton
