import Mathlib.Data.Set.Basic

/-!
# Lists written with a delimiter

Items that are written with a delimiter between them can be read back if each of them ends where it
can be seen: no other item begins what begins with it and the delimiter (`EndAt`). Items without the
delimiter end so, but items may hold it as well, if they are all of one length, or behind a first
element that they share. Where the items end, the list of them is told by the text
(`EndAt.eq_of_intercalate_eq`).
-/

namespace FiniteAutomata

variable {α : Type} {a d : α} {items : Set (List α)}

/-- An element that comes first where two equal lists are cut parts them in the same place. -/
theorem append_cons_inj_of_not_mem {s t u v : List α} (hs : a ∉ s) (ht : a ∉ t)
    (h : s ++ a :: u = t ++ a :: v) : s = t ∧ u = v := by
  -- If one part ends before the other, the element stands in the longer one.
  induction s generalizing t with
  | nil =>
    cases t with
    | nil => exact ⟨rfl, (List.cons.inj h).2⟩
    | cons b t =>
      obtain ⟨rfl, -⟩ := List.cons.inj h
      exact absurd (.head t) ht
  | cons b s ih =>
    cases t with
    | nil =>
      obtain ⟨rfl, -⟩ := List.cons.inj h
      exact absurd (.head s) hs
    | cons c t =>
      obtain ⟨rfl, hrest⟩ := List.cons.inj h
      obtain ⟨rfl, rfl⟩ := ih (mt (.tail b) hs) (mt (.tail b) ht) hrest
      exact ⟨rfl, rfl⟩

/-- What begins with an item and the delimiter begins so with no other item. -/
def EndAt (d : α) (items : Set (List α)) : Prop :=
  ∀ s ∈ items, ∀ t ∈ items, ∀ u v, s ++ d :: u = t ++ d :: v → s = t

/-- Fewer items end as well. -/
theorem EndAt.mono {items' : Set (List α)} (h : EndAt d items) (hsub : items' ⊆ items) :
    EndAt d items' :=
  fun s hs t ht => h s (hsub hs) t (hsub ht)

/-- Items without the delimiter end at it. -/
theorem endAt_of_not_mem (h : ∀ s ∈ items, d ∉ s) : EndAt d items :=
  fun s hs t ht _ _ heq => (append_cons_inj_of_not_mem (h s hs) (h t ht) heq).1

/-- Items of one length end where they are that long. -/
theorem endAt_of_length_eq {n : ℕ} (h : ∀ s ∈ items, s.length = n) : EndAt d items :=
  fun s hs t ht _ _ heq => (List.append_inj heq ((h s hs).trans (h t ht).symm)).1

/-- One more element before each item changes nothing about where they end, even if it is the
delimiter. -/
theorem EndAt.image_cons (h : EndAt d items) (a : α) : EndAt d (List.cons a '' items) := by
  rintro _ ⟨s, hs, rfl⟩ _ ⟨t, ht, rfl⟩ u v heq
  exact congrArg (List.cons a) (h s hs t ht u v (List.cons.inj heq).2)

/-- Items with the delimiter behind each of them are told by the text. -/
theorem EndAt.eq_of_flatMap_eq (h : EndAt d items) {xs ys : List (List α)}
    (hxs : ∀ s ∈ xs, s ∈ items) (hys : ∀ s ∈ ys, s ∈ items)
    (heq : xs.flatMap (· ++ [d]) = ys.flatMap (· ++ [d])) : xs = ys := by
  induction xs generalizing ys with
  | nil =>
    cases ys with
    | nil => rfl
    | cons t ys => simp at heq
  | cons s xs ih =>
    cases ys with
    | nil => simp at heq
    | cons t ys =>
      obtain ⟨hs, htail⟩ := List.forall_mem_cons.1 hxs
      obtain ⟨ht, htail'⟩ := List.forall_mem_cons.1 hys
      simp only [List.flatMap_cons, List.append_assoc, List.singleton_append] at heq
      obtain rfl := h s hs t ht _ _ heq
      rw [ih htail htail' (List.cons.inj (List.append_cancel_left heq)).2]

/-- One more delimiter at the end puts one behind each item. -/
theorem intercalate_append_singleton {xs : List (List α)} (h : xs ≠ []) (d : α) :
    [d].intercalate xs ++ [d] = xs.flatMap (· ++ [d]) := by
  induction xs with
  | nil => contradiction
  | cons s xs ih =>
    cases xs with
    | nil => simp
    | cons t xs =>
      rw [List.intercalate_cons_cons, List.flatMap_cons, ← ih (List.cons_ne_nil t xs),
        List.append_assoc]

/-- Items with the delimiter between them are told by the text, unless there are none. -/
theorem EndAt.eq_of_intercalate_eq (h : EndAt d items) {xs ys : List (List α)} (hx : xs ≠ [])
    (hy : ys ≠ []) (hxs : ∀ s ∈ xs, s ∈ items) (hys : ∀ s ∈ ys, s ∈ items)
    (heq : [d].intercalate xs = [d].intercalate ys) : xs = ys := by
  refine h.eq_of_flatMap_eq hxs hys ?_
  rw [← intercalate_append_singleton hx, ← intercalate_append_singleton hy, heq]

end FiniteAutomata
