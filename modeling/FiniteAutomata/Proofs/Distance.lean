import FiniteAutomata.Proofs.Traversal
import Mathlib.Order.Bounds.Basic

/-!
# Distances in a breadth-first search

The distance from one element to another is the least number of steps between them. A breadth-first
search takes what it finds by its distance from where it started (`Traverses.pairwise_distance`).

The invariant looks at the pending elements in two parts. Those in front are at some distance and
those behind are one step farther away; what has been seen is all that is not farther than the
former, together with the latter; and what is one step farther away and has not been seen is a
neighbour of one in front (`Layered`). Taking an element keeps this, and when none is left in front
the ones behind are the next layer.
-/

namespace FiniteAutomata.Search

open Std

variable {α : Type}

/-- So many steps of a relation lead from one element to another. -/
inductive Steps (R : α → α → Prop) (a : α) : ℕ → α → Prop where
  /-- No step leads nowhere else. -/
  | refl : Steps R a 0 a
  /-- One step more is taken at the end. -/
  | tail {n : ℕ} {b c : α} (h : Steps R a n b) (hbc : R b c) : Steps R a (n + 1) c

/-- One element is a neighbour of another. -/
abbrev Adjacent (neighbours : α → List α) (a b : α) : Prop := b ∈ neighbours a

/-- The least number of steps that lead from one element to another. -/
def IsDistance (R : α → α → Prop) (a : α) (n : ℕ) (b : α) : Prop := IsLeast {n | Steps R a n b} n

variable {R : α → α → Prop} {a b c : α} {m n : ℕ}

/-- An element is reached in a number of steps when it is reached at all. -/
theorem exists_steps_iff : (∃ n, Steps R a n b) ↔ Relation.ReflTransGen R a b := by
  constructor
  · rintro ⟨n, h⟩
    induction h with
    | refl => exact .refl
    | tail _ hbc ih => exact ih.tail hbc
  · intro h
    induction h with
    | refl => exact ⟨0, .refl⟩
    | tail _ hbc ih =>
      obtain ⟨n, hn⟩ := ih
      exact ⟨n + 1, hn.tail hbc⟩

/-- What is reached has a distance. -/
theorem Steps.exists_isDistance (h : Steps R a n b) : ∃ m ≤ n, IsDistance R a m b := by
  classical
  have hsteps : ∃ n, Steps R a n b := ⟨n, h⟩
  exact ⟨Nat.find hsteps, Nat.find_min' hsteps h, Nat.find_spec hsteps,
    fun _ hm => Nat.find_min' hsteps hm⟩

/-- Only an element itself is at no distance from it. -/
theorem IsDistance.eq_of_zero (h : IsDistance R a 0 b) : b = a := by
  cases h.1
  rfl

/-- The last step to an element comes from one that is a step nearer. -/
theorem IsDistance.exists_pred (h : IsDistance R a (n + 1) c) :
    ∃ b, IsDistance R a n b ∧ R b c := by
  obtain ⟨hsteps, hleast⟩ := h
  cases hsteps with
  | @tail _ b _ hb hbc =>
    obtain ⟨m, hmn, hm⟩ := hb.exists_isDistance
    have hle : n + 1 ≤ m + 1 := hleast (hm.1.tail hbc)
    obtain rfl : m = n := by omega
    exact ⟨b, hm, hbc⟩

variable [Ord α] [TransOrd α]

/-- A breadth-first search takes the elements at some distance: those in front are pending, and with
those behind they are all that is pending. -/
structure Layered (neighbours : α → List α) (start : α) (n : ℕ) (front behind : List α)
    (seen : FiniteSet α) : Prop where
  /-- The ones in front are at the distance. -/
  distance_front : ∀ a ∈ front, IsDistance (Adjacent neighbours) start n a
  /-- The ones behind are a step farther away. -/
  distance_behind : ∀ a ∈ behind, IsDistance (Adjacent neighbours) start (n + 1) a
  /-- What has been seen is not farther away than the distance, or is behind. -/
  mem_seen : ∀ a, a ∈ seen ↔
    (∃ m ≤ n, Steps (Adjacent neighbours) start m a) ∨ a ∈ behind
  /-- What is a step farther away is behind, or will be discovered from the ones in front. -/
  covered : ∀ b, IsDistance (Adjacent neighbours) start (n + 1) b →
    b ∈ behind ∨ ∃ a ∈ front, b ∈ neighbours a

namespace Layered

variable {neighbours : α → List α} {start : α} {front behind pending out : List α}
  {seen : FiniteSet α}

/-- At first the start is in front. -/
theorem init [LawfulEqOrd α] (neighbours : α → List α) (start : α) :
    Layered neighbours start 0 [start] [] ((∅ : FiniteSet α).insert start) where
  distance_front a ha := by
    rw [List.mem_singleton.1 ha]
    exact ⟨.refl, fun n _ => Nat.zero_le n⟩
  distance_behind a ha := absurd ha List.not_mem_nil
  mem_seen a := by
    simp only [FiniteSet.mem_insert_iff, ExtTreeSet.not_mem_empty, List.not_mem_nil, or_false,
      Nat.le_zero, exists_eq_left]
    constructor
    · rintro rfl
      exact .refl
    · rintro ⟨⟩
      rfl
  covered b hb := by
    obtain ⟨a, ha, hab⟩ := hb.exists_pred
    obtain rfl := ha.eq_of_zero
    exact .inr ⟨a, .head _, hab⟩

/-- What has not been seen is farther away than what is in front. -/
theorem lt_of_not_mem_seen (h : Layered neighbours start n front behind seen) (ha : a ∉ seen)
    (hm : Steps (Adjacent neighbours) start m a) : n < m := by
  by_contra! hle
  exact ha ((h.mem_seen a).2 (.inl ⟨m, hle, hm⟩))

/-- When an element in front is taken, its discoveries are put behind. -/
theorem take [LawfulEqOrd α] (h : Layered neighbours start n (a :: front) behind seen) :
    Layered neighbours start n front (behind ++ (discover seen (neighbours a)).1)
      (discover seen (neighbours a)).2 := by
  obtain ⟨ha, hfront⟩ := List.forall_mem_cons.1 h.distance_front
  refine ⟨hfront, fun b hb => ?_, fun b => ?_, fun b hb => ?_⟩
  · obtain hb | hb := List.mem_append.1 hb
    · exact h.distance_behind b hb
    · obtain ⟨hab, hfresh⟩ := mem_discover_fst.1 hb
      exact ⟨ha.1.tail hab, fun m hm => h.lt_of_not_mem_seen hfresh hm⟩
  · rw [mem_discover_snd, List.mem_append, mem_discover_fst, ← or_assoc, ← h.mem_seen]
    tauto
  · rw [List.mem_append, mem_discover_fst]
    obtain hb' | ⟨a', ha', hab⟩ := h.covered b hb
    · exact .inl (.inl hb')
    obtain rfl | ha' := List.mem_cons.1 ha'
    · -- A neighbour of the element is discovered now, unless it is behind already.
      by_cases hseen : b ∈ seen
      · obtain ⟨m, hmn, hm⟩ | hb' := (h.mem_seen b).1 hseen
        · have hle : n + 1 ≤ m := hb.2 hm
          omega
        · exact .inl (.inl hb')
      · exact .inl (.inr ⟨hab, hseen⟩)
    · exact .inr ⟨a', ha', hab⟩

/-- When no element is left in front, the ones behind are the next in front. -/
theorem next (h : Layered neighbours start n [] behind seen) :
    Layered neighbours start (n + 1) behind [] seen := by
  have hcovered (b : α) (hb : IsDistance (Adjacent neighbours) start (n + 1) b) :
      b ∈ behind := (h.covered b hb).resolve_right (by simp)
  refine ⟨h.distance_behind, by simp, fun b => ?_, fun b hb => ?_⟩
  · rw [h.mem_seen, or_iff_left List.not_mem_nil]
    constructor
    · rintro (⟨m, hmn, hm⟩ | hb)
      · exact ⟨m, by omega, hm⟩
      · exact ⟨n + 1, le_rfl, (h.distance_behind b hb).1⟩
    · rintro ⟨m, hmn, hm⟩
      obtain ⟨k, hkm, hk⟩ := hm.exists_isDistance
      obtain hkn | rfl : k ≤ n ∨ k = n + 1 := by omega
      · exact .inl ⟨k, hkn, hk.1⟩
      · exact .inr (hcovered b hk)
  · obtain ⟨a, ha, hab⟩ := hb.exists_pred
    exact .inr ⟨a, hcovered a ha, hab⟩

/-- The element that is taken next is in front, of this layer or of the next one. -/
theorem exists_cons (h : Layered neighbours start n front behind seen)
    (hpending : front ++ behind = a :: pending) : ∃ m ≥ n, ∃ front' behind',
      Layered neighbours start m (a :: front') behind' seen ∧ front' ++ behind' = pending := by
  cases front with
  | nil =>
    rw [List.nil_append] at hpending
    subst hpending
    exact ⟨n + 1, Nat.le_succ n, pending, [], h.next, List.append_nil pending⟩
  | cons b front =>
    rw [List.cons_append, List.cons.injEq] at hpending
    obtain ⟨rfl, rfl⟩ := hpending
    exact ⟨n, le_rfl, front, behind, h, rfl⟩

/-- What is taken from now on is not nearer than what is in front, and is taken by its distance. -/
theorem pairwise_distance [LawfulEqOrd α] (ht : Traverses neighbours pending seen out)
    (h : Layered neighbours start n front behind seen) (hpending : front ++ behind = pending) :
    (∀ b ∈ out, ∀ m, IsDistance (Adjacent neighbours) start m b → n ≤ m) ∧
      out.Pairwise fun a b => ∀ k m, IsDistance (Adjacent neighbours) start k a →
        IsDistance (Adjacent neighbours) start m b → k ≤ m := by
  induction ht generalizing n front behind with
  | done => exact ⟨by simp, .nil⟩
  | @take a pending out seen rest ih =>
    obtain ⟨k, hnk, front', behind', hk, rfl⟩ := h.exists_cons hpending
    obtain ⟨hle, hpairwise⟩ := ih hk.take (List.append_assoc ..).symm
    have ha : IsDistance (Adjacent neighbours) start k a := hk.distance_front a (.head _)
    refine ⟨List.forall_mem_cons.2 ⟨fun m hm => ?_, fun b hb m hm => hnk.trans (hle b hb m hm)⟩,
      List.pairwise_cons.2 ⟨fun b hb k' m hk' hm => ?_, hpairwise⟩⟩
    · rwa [hm.unique ha]
    · rw [hk'.unique ha]
      exact hle b hb m hm

end Layered

/-- A breadth-first search takes the elements by their distance from where it starts. -/
theorem Traverses.pairwise_distance [LawfulEqOrd α] {neighbours : α → List α} {start : α}
    {out : List α} (h : Traverses neighbours [start] ((∅ : FiniteSet α).insert start) out) :
    out.Pairwise fun a b => ∀ m n, IsDistance (Adjacent neighbours) start m a →
      IsDistance (Adjacent neighbours) start n b → m ≤ n :=
  (Layered.pairwise_distance h (.init neighbours start) rfl).2

end FiniteAutomata.Search
