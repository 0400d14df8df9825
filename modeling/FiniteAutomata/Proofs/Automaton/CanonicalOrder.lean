import FiniteAutomata.Automaton.Canonical
import FiniteAutomata.Proofs.Automaton.Map
import FiniteAutomata.Proofs.Automaton.Path
import FiniteAutomata.Proofs.Traversal
import Std.Data.DTreeMap.Internal.Lemmas

/-!
# The canonical order of states

The canonical order lists every state of an automaton once, marked states included, and starts with
the state that the traversal starts from (`mem_canonicalOrder`, `nodup_canonicalOrder`,
`head?_canonicalOrder`).

An injective renaming gives an automaton of the same shape, so its canonical order could differ from
the image of the old one only where texts decide: among the targets of one label and among the
states that are not reached. If the new texts put these in the order in which the old canonical
order lists them, the new canonical order is the image of the old one
(`canonicalOrder_mapStates`). The traversals of the two automata need not run in step, because a
trap may be discovered before the other targets of its label in one automaton and after them in the
other; but a trap is a dead end of the traversal.
-/

namespace FiniteAutomata

open Std Search

/-- The values of a map are those of its entries. -/
theorem values_eq_map_toList {α β : Type} {cmp : α → α → Ordering} [TransCmp cmp]
    (entries : ExtTreeMap α β cmp) : entries.values = entries.toList.map Prod.snd := by
  obtain ⟨entries⟩ := entries
  induction entries using ExtDTreeMap.inductionOn with
  | mk tree =>
    show tree.inner.values = (DTreeMap.Internal.Impl.Const.toList tree.inner).map Prod.snd
    rw [DTreeMap.Internal.Impl.values, DTreeMap.Internal.Impl.foldr_eq_foldr,
      DTreeMap.Internal.Impl.Const.toList_eq_toListModel_map, List.map_map,
      List.foldr_cons_eq_append]
    simp

namespace Automaton

variable {σ τ : Type} [Ord σ] [TransOrd σ] [Ord τ] [TransOrd τ] {A : Automaton σ}

/-! ## Targets by label -/

/-- The labels under which a state has targets, in order. -/
def labels (A : Automaton σ) (q : σ) : List Label := (A.successors.row q).keys

/-- The sets of targets are those under the labels of the state. -/
theorem targetSets_eq_map (A : Automaton σ) (q : σ) :
    A.targetSets q = (A.labels q).map (A.targets q) := by
  rw [targetSets, labels, values_eq_map_toList, ← ExtTreeMap.map_fst_toList_eq_keys, List.map_map]
  refine List.map_congr_left fun entry hentry => ?_
  have hget := ExtTreeMap.mem_toList_iff_getElem?_eq_some.1 hentry
  rw [Function.comp_apply, targets, Successors.targets, ExtTreeMap.getD_eq_getD_getElem?, hget]
  rfl

variable [LawfulEqOrd σ]

/-- A state has a label exactly when it has targets under it. -/
theorem mem_labels {q : σ} {l : Label} : l ∈ A.labels q ↔ ∃ r, r ∈ A.targets q l := by
  rw [labels, ExtTreeMap.mem_keys, ExtTreeMap.mem_iff_isSome_getElem?,
    A.consistent.compact.getElem?_row]
  by_cases h : A.successors.targets q l = ∅
  · simp [targets, h]
  · rw [if_neg h]
    simpa [targets, ExtTreeSet.eq_empty_iff_forall_not_mem] using h

/-- The members of the sets of targets are what transitions lead to. -/
theorem exists_mem_targetSets {q r : σ} :
    (∃ X ∈ A.targetSets q, r ∈ X) ↔ ∃ l, (⟨q, l, r⟩ : Transition σ) ∈ A.transitions := by
  rw [targetSets_eq_map]
  constructor
  · rintro ⟨X, hX, hr⟩
    obtain ⟨l, -, rfl⟩ := List.mem_map.1 hX
    exact ⟨l, mem_targets.1 hr⟩
  · rintro ⟨l, ht⟩
    have hr : r ∈ A.targets q l := mem_targets.2 ht
    exact ⟨_, List.mem_map_of_mem (mem_labels.2 ⟨r, hr⟩), hr⟩

/-- A trap is not final, and the transitions that leave it, of which there are some, come back. -/
theorem isTrap_iff {q : σ} : A.isTrap q = true ↔
    q ∉ A.finals ∧ (∃ t ∈ A.transitions, t.source = q) ∧
      ∀ t ∈ A.transitions, t.source = q → t.target = q := by
  have hmem (r : σ) : r ∈ (A.targetSets q).flatMap ExtTreeSet.toList ↔
      ∃ l, (⟨q, l, r⟩ : Transition σ) ∈ A.transitions := by
    rw [List.mem_flatMap, ← exists_mem_targetSets]
    simp only [ExtTreeSet.mem_toList]
  rw [isTrap]
  simp only [Bool.and_eq_true, Bool.not_eq_true', List.isEmpty_eq_false_iff_exists_mem,
    List.all_eq_true, hmem, beq_iff_eq, Std.compare_eq_iff_eq, and_assoc]
  refine and_congr ?_ (and_congr ?_ ?_)
  · rw [ExtTreeSet.mem_iff_contains, Bool.not_eq_true]
  · constructor
    · rintro ⟨r, l, ht⟩
      exact ⟨_, ht, rfl⟩
    · rintro ⟨⟨_, l, r⟩, ht, rfl⟩
      exact ⟨r, l, ht⟩
  · constructor
    · rintro h ⟨_, l, r⟩ ht rfl
      exact h r ⟨l, ht⟩
    · rintro h r ⟨l, ht⟩
      exact h _ ht rfl

section Text

variable [StateText σ]

/-- The targets of a state, label by label, those of one label by their texts. -/
def targetGroups (A : Automaton σ) (q : σ) : List (List σ) := (A.targetSets q).map sortByName

omit [LawfulEqOrd σ] in
/-- The neighbours of a state are its targets. -/
theorem neighbours_eq_flatten (A : Automaton σ) :
    A.neighbours = fun q => (A.targetGroups q).flatten := by
  funext q
  rw [neighbours, targetGroups, List.flatMap_def]

/-- A neighbour is what some transition leads to. -/
theorem mem_neighbours {q r : σ} :
    r ∈ A.neighbours q ↔ ∃ l, (⟨q, l, r⟩ : Transition σ) ∈ A.transitions := by
  rw [neighbours, List.mem_flatMap, ← exists_mem_targetSets]
  simp only [mem_sortByName]

/-- A trap has no neighbour but itself. -/
theorem eq_of_mem_neighbours_of_isTrap {q r : σ} (hq : A.isTrap q = true)
    (hr : r ∈ A.neighbours q) : r = q := by
  obtain ⟨l, ht⟩ := mem_neighbours.1 hr
  exact (isTrap_iff.1 hq).2.2 _ ht rfl

/-! ## Reached and unreached states -/

/-- The states and the start enclose the traversal. -/
theorem encloses_reachable (A : Automaton σ) (start : σ) :
    Encloses A.neighbours (FiniteSet.toFinset (A.states.insert start)) (A.states.size + 1)
      [start] where
  seeds_mem q hq := by
    rw [List.mem_singleton.1 hq, FiniteSet.mem_toFinset]
    exact FiniteSet.mem_insert_iff.2 (.inl rfl)
  neighbours_mem q _ r hr := by
    obtain ⟨l, ht⟩ := mem_neighbours.1 hr
    rw [FiniteSet.mem_toFinset]
    exact FiniteSet.mem_insert_iff.2 (.inr (mem_states.2 ⟨_, ht, .inr rfl⟩))
  card_le := by
    rw [FiniteSet.card_toFinset]
    exact ExtTreeSet.size_insert_le

/-- The traversal takes the states as a search without a bound does. -/
theorem traverses_reachable (A : Automaton σ) (start : σ) :
    Traverses (fun q => (A.targetGroups q).flatten) [start] ((∅ : FiniteSet σ).insert start)
      (A.reachable start) := by
  have h := (A.encloses_reachable start).traverses
  rw [neighbours_eq_flatten] at h
  have hdiscover : discover (∅ : FiniteSet σ) [start] =
      ([start], (∅ : FiniteSet σ).insert start) := by
    simp [discover]
  rw [hdiscover] at h
  rwa [reachable, neighbours_eq_flatten]

/-- A state is reached when some word leads to it. -/
theorem mem_reachable {start q : σ} : q ∈ A.reachable start ↔ ∃ w, A.Leads start w q := by
  rw [reachable, mem_search (A.encloses_reachable start)]
  simp only [List.mem_singleton, exists_eq_left]
  constructor
  · intro h
    induction h using Relation.ReflTransGen.head_induction_on with
    | refl => exact ⟨[], .nil q⟩
    | head hr _ ih =>
      obtain ⟨l, ht⟩ := mem_neighbours.1 hr
      obtain ⟨w, hw⟩ := ih
      cases l with
      | epsilon => exact ⟨w, .epsilon ht hw⟩
      | symbol c => exact ⟨c :: w, .symbol ht hw⟩
  · rintro ⟨w, hw⟩
    induction hw with
    | nil q => exact .refl
    | epsilon t _ ih => exact ih.head (mem_neighbours.2 ⟨_, t⟩)
    | symbol t _ ih => exact ih.head (mem_neighbours.2 ⟨_, t⟩)

/-- Only states are reached from a state. -/
theorem mem_stateSet_of_mem_reachable {start q : σ} (hstart : start ∈ A.stateSet)
    (hq : q ∈ A.reachable start) : q ∈ A.stateSet := by
  obtain ⟨w, hw⟩ := mem_reachable.1 hq
  exact mem_stateSet_of_leads hstart hw

/-- The states that are not reached from a state. -/
def unreached (A : Automaton σ) (start : σ) : FiniteSet σ :=
  let seen : FiniteSet σ := ExtTreeSet.ofList (A.reachable start)
  A.allStates.filter fun q => !seen.contains q

/-- A state that is not reached is a state that the traversal does not take. -/
theorem mem_unreached {start q : σ} :
    q ∈ A.unreached start ↔ q ∈ A.stateSet ∧ q ∉ A.reachable start := by
  rw [unreached, ExtTreeSet.mem_filter]
  simp only [ExtTreeSet.get_eq, Bool.not_eq_true', ← Bool.not_eq_true,
    ExtTreeSet.contains_iff_mem, FiniteSet.mem_ofList_iff, exists_prop]
  rfl

/-- Whether a state is a trap that is put off. -/
def isDeferred (A : Automaton σ) (start q : σ) : Bool := compare q start != .eq && A.isTrap q

omit [LawfulEqOrd σ] in
/-- The canonical order lists the states that are reached, the traps among them put off to the end,
and then the others. -/
theorem canonicalOrder_eq (A : Automaton σ) (start : σ) : A.canonicalOrder start =
    ((A.reachable start).filter fun q => !A.isDeferred start q) ++
      (A.reachable start).filter (A.isDeferred start) ++ sortByName (A.unreached start) := by
  rw [canonicalOrder, List.partition_eq_filter_filter]
  rfl

/-- The canonical order lists the states. -/
theorem mem_canonicalOrder {start q : σ} (hstart : start ∈ A.stateSet) :
    q ∈ A.canonicalOrder start ↔ q ∈ A.stateSet := by
  rw [canonicalOrder_eq, List.mem_append, List.mem_append, mem_sortByName, mem_unreached]
  simp only [List.mem_filter, Bool.not_eq_true']
  constructor
  · rintro ((⟨hq, -⟩ | ⟨hq, -⟩) | ⟨hq, -⟩)
    · exact mem_stateSet_of_mem_reachable hstart hq
    · exact mem_stateSet_of_mem_reachable hstart hq
    · exact hq
  · intro hq
    by_cases hreached : q ∈ A.reachable start
    · refine .inl ?_
      cases A.isDeferred start q
      · exact .inl ⟨hreached, rfl⟩
      · exact .inr ⟨hreached, rfl⟩
    · exact .inr ⟨hq, hreached⟩

omit [LawfulEqOrd σ] in
/-- Sorting puts states in the order of their texts. -/
theorem pairwise_sortByName (X : FiniteSet σ) :
    (sortByName X).Pairwise fun q r => byName q r = .lt :=
  ExtTreeSet.ordered_toList

omit [LawfulEqOrd σ] in
/-- Sorting repeats no state. -/
theorem nodup_sortByName (X : FiniteSet σ) : (sortByName X).Nodup := by
  have hasymm := FiniteSet.asymm_lt (byName : σ → σ → Ordering)
  refine (pairwise_sortByName X).imp fun {q r} h heq => ?_
  subst heq
  exact hasymm.asymm q q h h

/-- The canonical order lists no state twice. -/
theorem nodup_canonicalOrder (A : Automaton σ) (start : σ) : (A.canonicalOrder start).Nodup := by
  have hreached : (A.reachable start).Nodup := nodup_search (A.encloses_reachable start)
  rw [canonicalOrder_eq, List.nodup_append, List.nodup_append]
  refine ⟨⟨hreached.filter _, hreached.filter _, ?_⟩, nodup_sortByName _, ?_⟩
  · rintro q hq _ hq' rfl
    have hlive := (List.mem_filter.1 hq).2
    rw [(List.mem_filter.1 hq').2] at hlive
    contradiction
  · rintro q hq _ hq' rfl
    refine (mem_unreached.1 (mem_sortByName.1 hq')).2 ?_
    obtain hq | hq := List.mem_append.1 hq
    · exact (List.mem_filter.1 hq).1
    · exact (List.mem_filter.1 hq).1

omit [LawfulEqOrd σ] [StateText σ] in
/-- The start is not put off. -/
theorem isDeferred_start (A : Automaton σ) (start : σ) : A.isDeferred start start = false := by
  simp [isDeferred]

/-- The canonical order begins with the start. -/
theorem head?_canonicalOrder (A : Automaton σ) (start : σ) :
    (A.canonicalOrder start).head? = some start := by
  have h := A.traverses_reachable start
  generalize hreached : A.reachable start = reached at h
  cases h with
  | take _ =>
    rw [canonicalOrder_eq, hreached, List.filter_cons_of_pos (by rw [isDeferred_start]; rfl)]
    rfl

/-! ## The canonical order of an image -/

variable [StateText τ]

/-- Where texts decide, they decide as some order of the states does: among the targets of one label
and among the states that are not reached. -/
structure TextsAgree (A : Automaton σ) (start : σ) (lt : σ → σ → Prop) : Prop where
  /-- The targets of one label are in the given order. -/
  targets : ∀ q ∈ A.stateSet, ∀ l, (sortByName (A.targets q l)).Pairwise lt
  /-- The states that are not reached are in the given order. -/
  unreached : (sortByName (A.unreached start)).Pairwise lt

variable [LawfulEqOrd τ] {f : σ → τ} {lt : τ → τ → Prop} {start : σ}

omit [StateText σ] [StateText τ] in
/-- The labels of a state are those of its image. -/
theorem labels_mapStates (hf : Set.InjOn f A.stateSet) {q : σ} (hq : q ∈ A.stateSet) :
    (A.mapStates f).labels (f q) = A.labels q := by
  have hasymm := FiniteSet.asymm_lt (compare : Label → Label → Ordering)
  refine List.Pairwise.eq_of_mem_iff ExtTreeMap.ordered_keys ExtTreeMap.ordered_keys fun l => ?_
  show l ∈ (A.mapStates f).labels (f q) ↔ l ∈ A.labels q
  rw [mem_labels, mem_labels]
  constructor
  · rintro ⟨_, hr⟩
    obtain ⟨r, hr, -⟩ := (mem_targets_mapStates hf hq).1 hr
    exact ⟨r, hr⟩
  · rintro ⟨r, hr⟩
    exact ⟨f r, (mem_targets_mapStates hf hq).2 ⟨r, hr, rfl⟩⟩

omit [StateText σ] [StateText τ] in
/-- An image is a trap when the state is one. -/
theorem isTrap_mapStates (hf : Set.InjOn f A.stateSet) {q : σ} (hq : q ∈ A.stateSet) :
    (A.mapStates f).isTrap (f q) = A.isTrap q := by
  rw [Bool.eq_iff_iff, isTrap_iff, isTrap_iff, map_mem_finals_iff hf hq]
  refine and_congr_right fun _ => and_congr ?_ ?_
  · constructor
    · rintro ⟨_, ht, hsource⟩
      obtain ⟨u, hu, rfl⟩ := mem_transitions_mapStates.1 ht
      exact ⟨u, hu, hf (mem_stateSet_of_mem_transitions hu).1 hq hsource⟩
    · rintro ⟨u, hu, rfl⟩
      exact ⟨u.map f, mem_transitions_mapStates.2 ⟨u, hu, rfl⟩, rfl⟩
  · constructor
    · intro h u hu hsource
      have htarget := h (u.map f) (mem_transitions_mapStates.2 ⟨u, hu, rfl⟩) (congrArg f hsource)
      exact hf (mem_stateSet_of_mem_transitions hu).2 hq htarget
    · intro h _ ht hsource
      obtain ⟨u, hu, rfl⟩ := mem_transitions_mapStates.1 ht
      exact congrArg f (h u hu (hf (mem_stateSet_of_mem_transitions hu).1 hq hsource))

/-- The image has the shape of the automaton, with its targets grouped by the new texts. -/
theorem groupedImage_mapStates (hf : Set.InjOn f A.stateSet)
    (htargets : ∀ q ∈ A.stateSet, ∀ l,
      (sortByName ((A.mapStates f).targets (f q) l)).Pairwise lt) :
    GroupedImage f lt A.stateSet A.targetGroups (A.mapStates f).targetGroups where
  injOn := hf
  mem_region q _ := by
    rw [targetGroups, targetSets_eq_map, List.forall_mem_map, List.forall_mem_map]
    intro l _ r hr
    exact (mem_stateSet_of_mem_transitions (mem_targets.1 (mem_sortByName.1 hr))).2
  sortedImage q hq := by
    rw [targetGroups, targetGroups, targetSets_eq_map, targetSets_eq_map, labels_mapStates hf hq,
      List.map_map, List.map_map, List.forall₂_map_left_iff, List.forall₂_map_right_iff,
      List.forall₂_same]
    intro l _
    refine ⟨fun r => ?_, htargets q hq l⟩
    simp only [Function.comp_apply, mem_sortByName]
    exact mem_targets_mapStates hf hq

omit [StateText σ] [StateText τ] in
/-- An image is put off when the state is. -/
theorem isDeferred_mapStates (hf : Set.InjOn f A.stateSet) (hstart : start ∈ A.stateSet) {q : σ}
    (hq : q ∈ A.stateSet) : (A.mapStates f).isDeferred (f start) (f q) = A.isDeferred start q := by
  have hcompare : (compare (f q) (f start) == .eq) = (compare q start == .eq) := by
    rw [Bool.eq_iff_iff, beq_iff_eq, beq_iff_eq, Std.compare_eq_iff_eq, Std.compare_eq_iff_eq,
      hf.eq_iff hq hstart]
  rw [isDeferred, isDeferred, isTrap_mapStates hf hq, bne, bne, hcompare]

omit [StateText τ] [LawfulEqOrd τ] in
/-- Traps that are put off are dead ends of the traversal. -/
theorem deadEnds_isDeferred (A : Automaton σ) (start : σ) :
    DeadEnds (fun q => (A.targetGroups q).flatten) start (A.isDeferred start) where
  eq_of_mem q hq r hr := by
    rw [isDeferred, Bool.and_eq_true] at hq
    refine eq_of_mem_neighbours_of_isTrap hq.2 ?_
    rwa [neighbours_eq_flatten]
  start_live := A.isDeferred_start start

/-- The states that are not reached in the image are the images of those that are not. -/
theorem mem_unreached_mapStates (hf : Set.InjOn f A.stateSet)
    (hstart : start ∈ A.stateSet) {r : τ} :
    r ∈ (A.mapStates f).unreached (f start) ↔ ∃ q ∈ A.unreached start, f q = r := by
  have hreachable (q : σ) (hq : q ∈ A.stateSet) :
      f q ∈ (A.mapStates f).reachable (f start) ↔ q ∈ A.reachable start := by
    simp only [mem_reachable, leads_mapStates_iff hf hstart hq]
  simp only [mem_unreached]
  constructor
  · rintro ⟨hr, hnot⟩
    obtain ⟨q, hq, rfl⟩ := mem_allStates_mapStates.1 hr
    exact ⟨q, ⟨hq, mt (hreachable q hq).2 hnot⟩, rfl⟩
  · rintro ⟨q, ⟨hq, hnot⟩, rfl⟩
    exact ⟨mem_allStates_mapStates.2 ⟨q, hq, rfl⟩, mt (hreachable q hq).1 hnot⟩

/-- If the new texts decide in the order in which the images stand in the canonical order, this is
the new canonical order. -/
theorem canonicalOrder_mapStates [Std.Asymm lt] (hf : Set.InjOn f A.stateSet)
    (hstart : start ∈ A.stateSet) (htexts : (A.mapStates f).TextsAgree (f start) lt)
    (hlt : ((A.canonicalOrder start).map f).Pairwise lt) :
    (A.mapStates f).canonicalOrder (f start) = (A.canonicalOrder start).map f := by
  rw [canonicalOrder_eq, List.map_append, List.pairwise_append] at hlt
  have hgroups : GroupedImage f lt A.stateSet A.targetGroups (A.mapStates f).targetGroups :=
    groupedImage_mapStates hf fun q hq =>
      htexts.targets (f q) (mem_allStates_mapStates.2 ⟨q, hq, rfl⟩)
  have hreached := hgroups.deferred_eq_map (A.deadEnds_isDeferred start)
    ((A.mapStates f).deadEnds_isDeferred (f start)) (fun q => isDeferred_mapStates hf hstart) hstart
    (A.traverses_reachable start) ((A.mapStates f).traverses_reachable (f start)) hlt.1
  have hunreached : SortedImage f lt (sortByName (A.unreached start))
      (sortByName ((A.mapStates f).unreached (f start))) := by
    refine ⟨fun r => ?_, htexts.unreached⟩
    simp only [mem_sortByName, mem_unreached_mapStates hf hstart]
  rw [canonicalOrder_eq, canonicalOrder_eq, hreached, hunreached.eq_map hlt.2.1]
  exact List.map_append.symm

end Text

end Automaton

end FiniteAutomata
