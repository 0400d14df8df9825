import FiniteAutomata.Proofs.Search
import Mathlib.Data.List.Forall2
import Mathlib.Data.List.Sort
import Mathlib.Data.Set.Function

/-!
# The order of a breadth-first search

`mem_search` says what a search lists. The lemmas here are about the order in which a breadth-first
search lists it. `Traverses` is the search without the bound on its rounds: a bound that is large
enough does not change the list (`Encloses.traverses`).

An element is a dead end if it has no neighbour but itself. Whether a search meets a dead end early
or late does not matter to the other elements: without the dead ends, the list is that of the search
that leaves them out (`DeadEnds.traverses`), and the dead ends stand in the order in which the other
elements discover them (`DeadEnds.filter_eq`).

Two graphs may have the same shape and list the neighbours of an element in groups, each group in an
order of its own. If the second graph puts its groups in the order in which the first search came to
list their members, dead ends being put off to the end, the two searches list the same elements in
the same order (`GroupedImage.deferred_eq_map`).
-/

namespace FiniteAutomata.Search

open Std

variable {α β : Type} [Ord α] [TransOrd α] [Ord β] [TransOrd β]

/-- The elements that a breadth-first search takes, in order, if it goes on until nothing is
pending. -/
inductive Traverses (neighbours : α → List α) : List α → FiniteSet α → List α → Prop where
  /-- Nothing is pending. -/
  | done (seen : FiniteSet α) : Traverses neighbours [] seen []
  /-- The first pending element is taken and its neighbours are discovered. -/
  | take {a : α} {pending out : List α} {seen : FiniteSet α}
      (rest : Traverses neighbours (pending ++ (discover seen (neighbours a)).1)
        (discover seen (neighbours a)).2 out) :
      Traverses neighbours (a :: pending) seen (a :: out)

section Discover

/-- Lists are discovered one after the other. -/
theorem discover_append (seen : FiniteSet α) (xs ys : List α) :
    discover seen (xs ++ ys) =
      ((discover seen xs).1 ++ (discover (discover seen xs).2 ys).1,
        (discover (discover seen xs).2 ys).2) := by
  induction xs generalizing seen with
  | nil => rfl
  | cons x xs ih =>
    by_cases h : x ∈ seen
    · rw [List.cons_append, discover, if_pos h, ih, discover, if_pos h]
    · rw [List.cons_append, discover, if_neg h, ih, discover, if_neg h]
      rfl

/-- Discoveries are in the order of the list. -/
theorem discover_sublist (seen : FiniteSet α) (xs : List α) : (discover seen xs).1.Sublist xs := by
  induction xs generalizing seen with
  | nil => exact .slnil
  | cons x xs ih =>
    by_cases h : x ∈ seen
    · rw [discover, if_pos h]
      exact (ih seen).cons x
    · rw [discover, if_neg h]
      exact (ih (seen.insert x)).cons_cons x

/-- Where all has been discovered, there is nothing to discover. -/
theorem discover_of_forall_mem {seen : FiniteSet α} {xs : List α} (h : ∀ a ∈ xs, a ∈ seen) :
    discover seen xs = ([], seen) := by
  induction xs with
  | nil => rfl
  | cons x xs ih =>
    rw [discover, if_pos (h x (.head _))]
    exact ih fun a ha => h a (.tail _ ha)

variable [LawfulEqOrd α]

/-- The discoveries of some kind are what is discovered of this kind. -/
theorem filter_discover {p : α → Bool} {seen seen' : FiniteSet α}
    (hseen : ∀ a, p a = true → (a ∈ seen' ↔ a ∈ seen)) (xs : List α) :
    (discover seen xs).1.filter p = (discover seen' (xs.filter p)).1 := by
  induction xs generalizing seen seen' with
  | nil => rfl
  | cons x xs ih =>
    cases hp : p x with
    | false =>
      rw [List.filter_cons_of_neg (by simp [hp])]
      by_cases hx : x ∈ seen
      · rw [discover, if_pos hx, ih hseen]
      · rw [discover, if_neg hx, List.filter_cons_of_neg (by simp [hp])]
        refine ih fun a ha => ?_
        have hne : a ≠ x := fun h => by simp [h, hp] at ha
        rw [hseen a ha, FiniteSet.mem_insert_iff, or_iff_right hne]
    | true =>
      rw [List.filter_cons_of_pos hp]
      by_cases hx : x ∈ seen
      · rw [discover, if_pos hx, discover, if_pos ((hseen x hp).2 hx), ih hseen]
      · rw [discover, if_neg hx, discover, if_neg (mt (hseen x hp).1 hx),
          List.filter_cons_of_pos hp]
        refine congrArg (x :: ·) (ih fun a ha => ?_)
        rw [FiniteSet.mem_insert_iff, FiniteSet.mem_insert_iff, hseen a ha]

/-- Seen and discovered elements of some kind are what is seen and discovered of this kind. -/
theorem mem_discover_filter {p : α → Bool} {seen seen' : FiniteSet α}
    (hseen : ∀ a, p a = true → (a ∈ seen' ↔ a ∈ seen)) (xs : List α) {a : α} (ha : p a = true) :
    a ∈ (discover seen' (xs.filter p)).2 ↔ a ∈ (discover seen xs).2 := by
  rw [mem_discover_snd, mem_discover_snd, hseen a ha, List.mem_filter, and_iff_left ha]

/-- If what is pending has been seen, it still has after a round. -/
theorem mem_discover_of_mem_append {seen : FiniteSet α} {pending xs : List α}
    (h : ∀ a ∈ pending, a ∈ seen) :
    ∀ a ∈ pending ++ (discover seen xs).1, a ∈ (discover seen xs).2 := by
  intro a ha
  rw [mem_discover_snd]
  obtain ha | ha := List.mem_append.1 ha
  · exact .inl (h a ha)
  · exact .inr (mem_discover_fst.1 ha).1

end Discover

namespace Traverses

variable {neighbours : α → List α} {pending out out' : List α} {seen seen' : FiniteSet α}

/-- What is taken is determined by what is pending and what has been seen. -/
theorem unique (h : Traverses neighbours pending seen out)
    (h' : Traverses neighbours pending seen out') : out = out' := by
  induction h generalizing out' with
  | done => cases h'; rfl
  | take _ ih =>
    cases h' with
    | take rest => rw [ih rest]

/-- What is taken lies where the pending elements lie, if no neighbour leads out of there. -/
theorem forall_mem {P : α → Prop} (h : Traverses neighbours pending seen out)
    (hneighbours : ∀ a, P a → ∀ b ∈ neighbours a, P b) (hpending : ∀ a ∈ pending, P a) :
    ∀ a ∈ out, P a := by
  induction h with
  | done => exact hpending
  | take _ ih =>
    obtain ⟨ha, hpending⟩ := List.forall_mem_cons.1 hpending
    refine List.forall_mem_cons.2 ⟨ha, ih fun b hb => ?_⟩
    obtain hb | hb := List.mem_append.1 hb
    · exact hpending b hb
    · exact hneighbours _ ha b ((discover_sublist _ _).subset hb)

/-- Pending elements are taken in the order in which they are pending. -/
theorem pending_sublist (h : Traverses neighbours pending seen out) : pending.Sublist out := by
  induction h with
  | done => exact .slnil
  | take _ ih => exact ((List.sublist_append_left ..).trans ih).cons_cons _

end Traverses

variable [LawfulEqOrd α]

omit [LawfulEqOrd α] in
/-- New discoveries join the pending elements of a breadth-first search at the end. -/
theorem Exhausts.traverses {neighbours : α → List α} {pending out : List α} {seen : FiniteSet α}
    (h : Exhausts .breadthFirst neighbours pending seen out) :
    Traverses neighbours pending seen out := by
  induction h with
  | done seen => exact .done seen
  | take _ ih => exact .take ih

/-- A search whose bound suffices takes what is taken without a bound on the rounds. -/
theorem Encloses.traverses {neighbours : α → List α} {region : Finset α} {bound : ℕ}
    {seeds : List α} (h : Encloses neighbours region bound seeds) :
    Traverses neighbours (discover ∅ seeds).1 (discover ∅ seeds).2
      (search .breadthFirst neighbours bound seeds) :=
  (h.exhausts .breadthFirst).traverses

/-! ## Dead ends -/

namespace Traverses

variable {neighbours : α → List α} {pending out : List α} {seen seen' : FiniteSet α}
  {dead : α → Bool}

omit [LawfulEqOrd α] in
/-- A dead end that has been seen discovers nothing. -/
theorem discover_deadEnd {a : α} (hdead : ∀ a, dead a = true → ∀ b ∈ neighbours a, b = a)
    (ha : dead a = true) (hseen : a ∈ seen) : discover seen (neighbours a) = ([], seen) :=
  discover_of_forall_mem fun b hb => by rwa [hdead a ha b hb]

/-- Without dead ends, a search takes what the search that leaves them out takes. -/
theorem filter (h : Traverses neighbours pending seen out)
    (hdead : ∀ a, dead a = true → ∀ b ∈ neighbours a, b = a)
    (hpending : ∀ a ∈ pending, a ∈ seen)
    (hseen : ∀ a, (!dead a) = true → (a ∈ seen' ↔ a ∈ seen)) :
    Traverses (fun a => (neighbours a).filter fun b => !dead b) (pending.filter fun a => !dead a)
      seen' (out.filter fun a => !dead a) := by
  induction h generalizing seen' with
  | done => exact .done seen'
  | @take a pending out seen rest ih =>
    obtain ⟨haseen, hpending⟩ := List.forall_mem_cons.1 hpending
    cases ha : dead a with
    | false =>
      rw [List.filter_cons_of_pos (by simp [ha]), List.filter_cons_of_pos (by simp [ha])]
      apply take
      rw [← filter_discover hseen, ← List.filter_append]
      exact ih (mem_discover_of_mem_append hpending) fun b => mem_discover_filter hseen _
    | true =>
      -- Nothing is discovered, and the other search does not even know of the dead end.
      rw [discover_deadEnd hdead ha haseen, List.append_nil] at ih
      rw [List.filter_cons_of_neg (by simp [ha]), List.filter_cons_of_neg (by simp [ha])]
      exact ih hpending hseen

/-- Dead ends are taken in the order in which the other elements discover them. -/
theorem filter_deadEnds (h : Traverses neighbours pending seen out)
    (hdead : ∀ a, dead a = true → ∀ b ∈ neighbours a, b = a)
    (hpending : ∀ a ∈ pending, a ∈ seen)
    (hseen : ∀ a, dead a = true → (a ∈ seen' ↔ a ∈ seen)) :
    out.filter dead = pending.filter dead ++
      (discover seen' ((out.filter fun a => !dead a).flatMap fun a =>
        (neighbours a).filter dead)).1 := by
  induction h generalizing seen' with
  | done => rfl
  | @take a pending out seen rest ih =>
    obtain ⟨haseen, hpending⟩ := List.forall_mem_cons.1 hpending
    cases ha : dead a with
    | false =>
      -- Its dead ends are discovered after the pending ones and before those of what comes later.
      have hrest := ih (mem_discover_of_mem_append hpending) fun b =>
        mem_discover_filter hseen (neighbours a)
      rw [List.filter_cons_of_neg (by simp [ha]), List.filter_cons_of_neg (by simp [ha]),
        List.filter_cons_of_pos (by simp [ha]), hrest, List.flatMap_cons, discover_append,
        List.filter_append, filter_discover hseen, List.append_assoc]
    | true =>
      rw [discover_deadEnd hdead ha haseen, List.append_nil] at ih
      rw [List.filter_cons_of_pos ha, List.filter_cons_of_pos ha,
        List.filter_cons_of_neg (by simp [ha]), ih hpending hseen, List.cons_append]

end Traverses

/-- Dead ends that a search from some element may leave out. -/
structure DeadEnds (neighbours : α → List α) (start : α) (dead : α → Bool) : Prop where
  /-- They have no neighbour but themselves. -/
  eq_of_mem : ∀ a, dead a = true → ∀ b ∈ neighbours a, b = a
  /-- The search does not start from one of them. -/
  start_live : dead start = false

namespace DeadEnds

variable {neighbours : α → List α} {start : α} {dead : α → Bool} {out : List α}

/-- Without dead ends, a search from an element takes what the search that leaves them out takes. -/
theorem traverses (hdead : DeadEnds neighbours start dead)
    (h : Traverses neighbours [start] ((∅ : FiniteSet α).insert start) out) :
    Traverses (fun a => (neighbours a).filter fun b => !dead b) [start]
      ((∅ : FiniteSet α).insert start) (out.filter fun a => !dead a) := by
  have hlive := h.filter hdead.eq_of_mem (by simp) fun _ _ => Iff.rfl
  rwa [List.filter_cons_of_pos (by simp [hdead.start_live]), List.filter_nil] at hlive

/-- Dead ends are taken in the order in which the other elements discover them. -/
theorem filter_eq (hdead : DeadEnds neighbours start dead)
    (h : Traverses neighbours [start] ((∅ : FiniteSet α).insert start) out) :
    out.filter dead = (discover ((∅ : FiniteSet α).insert start)
      ((out.filter fun a => !dead a).flatMap fun a => (neighbours a).filter dead)).1 := by
  have hdeadEnds := h.filter_deadEnds hdead.eq_of_mem (by simp) fun _ _ => Iff.rfl
  rwa [List.filter_cons_of_neg (by simp [hdead.start_live])] at hdeadEnds

end DeadEnds

/-! ## Searching an image -/

/-- A list that holds the images of the members of another, in a given order. -/
structure SortedImage (f : α → β) (lt : β → β → Prop) (xs : List α) (ys : List β) : Prop where
  /-- The members are the images. -/
  mem_iff : ∀ b, b ∈ ys ↔ ∃ a ∈ xs, f a = b
  /-- They are in order. -/
  pairwise : ys.Pairwise lt

namespace SortedImage

variable {f : α → β} {lt : β → β → Prop} {xs : List α} {ys : List β}

omit [Ord α] [TransOrd α] [LawfulEqOrd α] [Ord β] [TransOrd β] in
/-- If the images are in the given order, the list is theirs. -/
theorem eq_map [Std.Asymm lt] (h : SortedImage f lt xs ys) (hlt : (xs.map f).Pairwise lt) :
    ys = xs.map f :=
  h.pairwise.eq_of_mem_iff hlt fun b => by rw [h.mem_iff, List.mem_map]

omit [Ord α] [TransOrd α] [LawfulEqOrd α] [Ord β] [TransOrd β] in
/-- The members of some kind hold the images of the members of this kind. -/
theorem filter (h : SortedImage f lt xs ys) {p : α → Bool} {p' : β → Bool}
    (hp : ∀ a ∈ xs, p' (f a) = p a) : SortedImage f lt (xs.filter p) (ys.filter p') where
  mem_iff b := by
    rw [List.mem_filter, h.mem_iff]
    constructor
    · rintro ⟨⟨a, ha, rfl⟩, hb⟩
      exact ⟨a, List.mem_filter.2 ⟨ha, hp a ha ▸ hb⟩, rfl⟩
    · rintro ⟨a, ha, rfl⟩
      obtain ⟨ha, hpa⟩ := List.mem_filter.1 ha
      exact ⟨⟨a, ha, rfl⟩, (hp a ha).trans hpa⟩
  pairwise := h.pairwise.filter p'

omit [Ord α] [TransOrd α] [LawfulEqOrd α] [Ord β] [TransOrd β] in
/-- In lists of lists, too, the members of some kind hold the images of the members of this kind. -/
theorem forall₂_filter {xss : List (List α)} {yss : List (List β)}
    (h : List.Forall₂ (SortedImage f lt) xss yss) {p : α → Bool} {p' : β → Bool}
    (hp : ∀ xs ∈ xss, ∀ a ∈ xs, p' (f a) = p a) :
    List.Forall₂ (SortedImage f lt) (xss.map (List.filter p)) (yss.map (List.filter p')) := by
  induction h with
  | nil => exact .nil
  | cons hxy _ ih =>
    obtain ⟨hxs, hxss⟩ := List.forall_mem_cons.1 hp
    exact .cons (hxy.filter hxs) (ih hxss)

omit [Ord α] [TransOrd α] [LawfulEqOrd α] [Ord β] [TransOrd β] in
/-- Lists of which each holds the images of the members of another hold together the images of all
members. -/
theorem mem_flatten_iff {xss : List (List α)} {yss : List (List β)}
    (h : List.Forall₂ (SortedImage f lt) xss yss) (b : β) :
    b ∈ yss.flatten ↔ ∃ a ∈ xss.flatten, f a = b := by
  induction h with
  | nil => simp
  | cons hxy _ ih =>
    simp only [List.flatten_cons, List.mem_append, ih, hxy.mem_iff, or_and_right, exists_or]

end SortedImage

variable [LawfulEqOrd β] {f : α → β} {lt : β → β → Prop} {region : Set α}

/-- What is discovered of images, group by group, are the images of the discoveries, if these are in
the order of the groups. -/
theorem discover_flatten_eq_map [Std.Asymm lt] {xss : List (List α)} {yss : List (List β)}
    (h : List.Forall₂ (SortedImage f lt) xss yss) (hinj : Set.InjOn f region)
    (hregion : ∀ xs ∈ xss, ∀ a ∈ xs, a ∈ region) {seen : FiniteSet α} {seen' : FiniteSet β}
    (hseen : ∀ a ∈ region, f a ∈ seen' ↔ a ∈ seen)
    (hlt : ((discover seen xss.flatten).1.map f).Pairwise lt) :
    (discover seen' yss.flatten).1 = (discover seen xss.flatten).1.map f := by
  induction h generalizing seen seen' with
  | nil => rfl
  | @cons xs ys xss yss hxy hrest ih =>
    obtain ⟨hxs, hxss⟩ := List.forall_mem_cons.1 hregion
    rw [List.flatten_cons, List.flatten_cons, discover_append, discover_append, List.map_append]
    rw [List.flatten_cons, discover_append, List.map_append, List.pairwise_append] at hlt
    -- The first groups have corresponding members, so the new ones among them correspond.
    have himage : SortedImage f lt (discover seen xs).1 (discover seen' ys).1 := by
      refine ⟨fun b => ?_, hxy.pairwise.sublist (discover_sublist seen' ys)⟩
      rw [mem_discover_fst, hxy.mem_iff]
      constructor
      · rintro ⟨⟨a, ha, rfl⟩, hb⟩
        exact ⟨a, mem_discover_fst.2 ⟨ha, mt (hseen a (hxs a ha)).2 hb⟩, rfl⟩
      · rintro ⟨a, ha, rfl⟩
        obtain ⟨ha, hfresh⟩ := mem_discover_fst.1 ha
        exact ⟨⟨a, ha, rfl⟩, mt (hseen a (hxs a ha)).1 hfresh⟩
    rw [himage.eq_map hlt.1]
    refine congrArg _ (ih hxss (fun a ha => ?_) hlt.2.1)
    rw [mem_discover_snd, mem_discover_snd, hseen a ha]
    have hsub : {a | a ∈ xs} ⊆ region := hxs
    exact or_congr_right ((hxy.mem_iff (f a)).trans (hinj.mem_image_iff hsub ha))

/-- Two graphs of one shape on a region, whose elements have their neighbours in groups. The second
graph puts each group in a given order. -/
structure GroupedImage (f : α → β) (lt : β → β → Prop) (region : Set α)
    (groups : α → List (List α)) (groups' : β → List (List β)) : Prop where
  /-- The images of different elements are different. -/
  injOn : Set.InjOn f region
  /-- The neighbours of the elements of the region are in the region. -/
  mem_region : ∀ a ∈ region, ∀ xs ∈ groups a, ∀ b ∈ xs, b ∈ region
  /-- The groups of an image hold the images of the groups. -/
  sortedImage : ∀ a ∈ region, List.Forall₂ (SortedImage f lt) (groups a) (groups' (f a))

namespace GroupedImage

variable {groups : α → List (List α)} {groups' : β → List (List β)}

omit [Ord α] [TransOrd α] [LawfulEqOrd α] [Ord β] [TransOrd β] [LawfulEqOrd β] in
/-- Leaving out the elements of some kind in both graphs keeps them of one shape. -/
theorem filter (h : GroupedImage f lt region groups groups') (p : α → Bool) (p' : β → Bool)
    (hp : ∀ a ∈ region, p' (f a) = p a) :
    GroupedImage f lt region (fun a => (groups a).map (List.filter p))
      (fun b => (groups' b).map (List.filter p')) where
  injOn := h.injOn
  mem_region a ha := by
    rw [List.forall_mem_map]
    exact fun xs hxs b hb => h.mem_region a ha xs hxs b (List.mem_filter.1 hb).1
  sortedImage a ha := SortedImage.forall₂_filter (h.sortedImage a ha) fun xs hxs b hb =>
    hp b (h.mem_region a ha xs hxs b hb)

omit [Ord α] [TransOrd α] [LawfulEqOrd α] [Ord β] [TransOrd β] [LawfulEqOrd β] in
/-- The neighbours of an element of the region are in the region. -/
theorem mem_region_of_mem_flatten (h : GroupedImage f lt region groups groups') {a b : α}
    (ha : a ∈ region) (hb : b ∈ (groups a).flatten) : b ∈ region := by
  obtain ⟨xs, hxs, hbxs⟩ := List.mem_flatten.1 hb
  exact h.mem_region a ha xs hxs b hbxs

omit [Ord α] [TransOrd α] [LawfulEqOrd α] [Ord β] [TransOrd β] [LawfulEqOrd β] in
/-- An image is a neighbour of an image exactly when the one element is a neighbour of the other. -/
theorem map_mem_flatten_iff (h : GroupedImage f lt region groups groups') {a b : α}
    (ha : a ∈ region) (hb : b ∈ region) :
    f b ∈ (groups' (f a)).flatten ↔ b ∈ (groups a).flatten := by
  have hsub : {b | b ∈ (groups a).flatten} ⊆ region := fun _ => h.mem_region_of_mem_flatten ha
  exact (SortedImage.mem_flatten_iff (h.sortedImage a ha) (f b)).trans
    (h.injOn.mem_image_iff hsub hb)

omit [Ord α] [TransOrd α] [LawfulEqOrd α] [Ord β] [TransOrd β] [LawfulEqOrd β] in
/-- The groups of the images of some elements hold the images of the groups of these elements. -/
theorem forall₂_flatMap (h : GroupedImage f lt region groups groups') {xs : List α}
    (hxs : ∀ a ∈ xs, a ∈ region) :
    List.Forall₂ (SortedImage f lt) (xs.flatMap groups) ((xs.map f).flatMap groups') := by
  induction xs with
  | nil => exact .nil
  | cons a xs ih =>
    obtain ⟨ha, hxs⟩ := List.forall_mem_cons.1 hxs
    exact List.rel_append (h.sortedImage a ha) (ih hxs)

/-- If the first search takes its elements in the order of the groups of the second graph, the
second search takes their images in the same order. -/
theorem traverses_map [Std.Asymm lt] (h : GroupedImage f lt region groups groups')
    {pending out : List α} {seen : FiniteSet α} {seen' : FiniteSet β}
    (htraverses : Traverses (fun a => (groups a).flatten) pending seen out)
    (hpending : ∀ a ∈ pending, a ∈ region) (hseen : ∀ a ∈ region, f a ∈ seen' ↔ a ∈ seen)
    (hlt : (out.map f).Pairwise lt) :
    Traverses (fun b => (groups' b).flatten) (pending.map f) seen' (out.map f) := by
  induction htraverses generalizing seen' with
  | done => exact .done seen'
  | @take a pending out seen rest ih =>
    obtain ⟨ha, hpending⟩ := List.forall_mem_cons.1 hpending
    have hgroups := h.sortedImage a ha
    have hregion := h.mem_region a ha
    -- The discoveries are taken later, so they are in order.
    have hnew : ((discover seen (groups a).flatten).1.map f).Pairwise lt := by
      have hsub := (List.sublist_append_right pending _).trans rest.pending_sublist
      exact (List.pairwise_cons.1 hlt).2.sublist (hsub.map f)
    have hdiscover := discover_flatten_eq_map hgroups h.injOn hregion hseen hnew
    rw [List.map_cons, List.map_cons]
    apply Traverses.take
    rw [hdiscover, ← List.map_append]
    refine ih (fun b hb => ?_) (fun b hb => ?_) (List.pairwise_cons.1 hlt).2
    · obtain hb | hb := List.mem_append.1 hb
      · exact hpending b hb
      · exact h.mem_region_of_mem_flatten ha (mem_discover_fst.1 hb).1
    · rw [mem_discover_snd, mem_discover_snd, hseen b hb, h.map_mem_flatten_iff ha hb]

section Deferred

variable {dead : α → Bool} {dead' : β → Bool} {start : α} {out : List α} {out' : List β}

omit [LawfulEqOrd α] [Ord β] [TransOrd β] [LawfulEqOrd β] in
/-- What is not a dead end is taken in the region. -/
theorem mem_region_of_mem_live (h : GroupedImage f lt region groups groups')
    (hstart : start ∈ region)
    (hout : Traverses (fun a => (groups a).flatten.filter fun b => !dead b) [start]
      ((∅ : FiniteSet α).insert start) out) : ∀ a ∈ out, a ∈ region := by
  refine hout.forall_mem (P := (· ∈ region)) (fun a ha b hb => ?_) (by simpa using hstart)
  exact h.mem_region_of_mem_flatten ha (List.mem_filter.1 hb).1

/-- The image of the start alone has been seen where the start has. -/
theorem mem_insert_map_iff (h : GroupedImage f lt region groups groups') (hstart : start ∈ region)
    {a : α} (ha : a ∈ region) :
    f a ∈ (∅ : FiniteSet β).insert (f start) ↔ a ∈ (∅ : FiniteSet α).insert start := by
  simp [h.injOn.eq_iff hstart ha]

/-- Without dead ends, the second search takes the images of what the first one takes, if these are
in the order of the groups. -/
theorem live_eq_map [Std.Asymm lt] (h : GroupedImage f lt region groups groups')
    (hdead : DeadEnds (fun a => (groups a).flatten) start dead)
    (hdead' : DeadEnds (fun b => (groups' b).flatten) (f start) dead')
    (hmap : ∀ a ∈ region, dead' (f a) = dead a) (hstart : start ∈ region)
    (hout : Traverses (fun a => (groups a).flatten) [start] ((∅ : FiniteSet α).insert start) out)
    (hout' : Traverses (fun b => (groups' b).flatten) [f start]
      ((∅ : FiniteSet β).insert (f start)) out')
    (hlt : ((out.filter fun a => !dead a).map f).Pairwise lt) :
    (out'.filter fun b => !dead' b) = (out.filter fun a => !dead a).map f := by
  have hlive := h.filter (fun a => !dead a) (fun b => !dead' b) fun a ha => by rw [hmap a ha]
  have hfirst := hdead.traverses hout
  have hsecond := hdead'.traverses hout'
  simp only [List.filter_flatten] at hfirst hsecond
  have himage := hlive.traverses_map hfirst (by simpa using hstart)
    (fun a ha => h.mem_insert_map_iff hstart ha) hlt
  exact hsecond.unique himage

/-- The dead ends of the second search are the images of those of the first one, if these are in the
order of the groups and the other elements are taken alike. -/
theorem deadEnds_eq_map [Std.Asymm lt] (h : GroupedImage f lt region groups groups')
    (hdead : DeadEnds (fun a => (groups a).flatten) start dead)
    (hdead' : DeadEnds (fun b => (groups' b).flatten) (f start) dead')
    (hmap : ∀ a ∈ region, dead' (f a) = dead a) (hstart : start ∈ region)
    (hout : Traverses (fun a => (groups a).flatten) [start] ((∅ : FiniteSet α).insert start) out)
    (hout' : Traverses (fun b => (groups' b).flatten) [f start]
      ((∅ : FiniteSet β).insert (f start)) out')
    (hlive : (out'.filter fun b => !dead' b) = (out.filter fun a => !dead a).map f)
    (hlt : ((out.filter dead).map f).Pairwise lt) :
    out'.filter dead' = (out.filter dead).map f := by
  have hgroups := h.filter dead dead' hmap
  have hregion := h.mem_region_of_mem_live hstart (hdead.traverses hout)
  have hflatten {γ δ : Type} (xs : List γ) (g : γ → List (List δ)) :
      (xs.flatMap fun a => (g a).flatten) = (xs.flatMap g).flatten := by
    simp only [List.flatten_eq_flatMap, List.flatMap_assoc]
  have hfirst := hdead.filter_eq hout
  have hsecond := hdead'.filter_eq hout'
  simp only [List.filter_flatten, hflatten, hlive] at hfirst hsecond
  -- Both searches discover their dead ends from the same elements, group by group.
  rw [hfirst] at hlt ⊢
  rw [hsecond]
  refine discover_flatten_eq_map (hgroups.forall₂_flatMap hregion) h.injOn (fun xs hxs => ?_)
    (fun a ha => h.mem_insert_map_iff hstart ha) hlt
  obtain ⟨a, ha, hxs⟩ := List.mem_flatMap.1 hxs
  exact hgroups.mem_region a (hregion a ha) xs hxs

/-- If the first search takes its elements in the order of the groups of the second graph once dead
ends are put off to the end, the second search takes their images in the same order. -/
theorem deferred_eq_map [Std.Asymm lt] (h : GroupedImage f lt region groups groups')
    (hdead : DeadEnds (fun a => (groups a).flatten) start dead)
    (hdead' : DeadEnds (fun b => (groups' b).flatten) (f start) dead')
    (hmap : ∀ a ∈ region, dead' (f a) = dead a) (hstart : start ∈ region)
    (hout : Traverses (fun a => (groups a).flatten) [start] ((∅ : FiniteSet α).insert start) out)
    (hout' : Traverses (fun b => (groups' b).flatten) [f start]
      ((∅ : FiniteSet β).insert (f start)) out')
    (hlt : (((out.filter fun a => !dead a) ++ out.filter dead).map f).Pairwise lt) :
    (out'.filter fun b => !dead' b) ++ out'.filter dead' =
      ((out.filter fun a => !dead a) ++ out.filter dead).map f := by
  rw [List.map_append, List.pairwise_append] at hlt
  have hlive := h.live_eq_map hdead hdead' hmap hstart hout hout' hlt.1
  rw [hlive, h.deadEnds_eq_map hdead hdead' hmap hstart hout hout' hlive hlt.2.1, List.map_append]

end Deferred

end GroupedImage

end FiniteAutomata.Search
