import Std.Data.ExtTreeSet

/-!
# Finite sets of ordered elements

Finite sets are kept in order, and two of them with the same members are equal. On top of the
operations of `Std.ExtTreeSet` stand the image of a set, the union of a family of sets indexed by
a set, and the order of the sets themselves: by their elements in order, a set before those that
it is an initial part of. Membership lemmas say what each operation holds.
-/

namespace FiniteAutomata

open Std

/-- A finite set, kept in the order of its elements. -/
abbrev FiniteSet (α : Type) [Ord α] := ExtTreeSet α

namespace FiniteSet

variable {α β : Type} [Ord α] [TransOrd α] [Ord β] [TransOrd β]

section Lawful

variable [LawfulEqOrd α]

/-- Inserting adds one member. -/
theorem mem_insert_iff {s : FiniteSet α} {a b : α} : a ∈ s.insert b ↔ a = b ∨ a ∈ s := by
  rw [ExtTreeSet.mem_insert, Std.compare_eq_iff_eq, eq_comm]

/-- The set of a list holds its members. -/
theorem mem_ofList_iff {xs : List α} {a : α} :
    a ∈ (ExtTreeSet.ofList xs : FiniteSet α) ↔ a ∈ xs := by
  let _ : DecidableEq α := fun a b => decidable_of_iff (compare a b = .eq) Std.compare_eq_iff_eq
  rw [ExtTreeSet.mem_ofList, List.contains_iff_mem]

end Lawful

/-- The images of the members under a function. -/
def image (f : α → β) (s : FiniteSet α) : FiniteSet β := ExtTreeSet.ofList (s.toList.map f)

/-- The union of the sets that a function gives for the members. -/
def bind (s : FiniteSet α) (f : α → FiniteSet β) : FiniteSet β :=
  ExtTreeSet.ofList (s.toList.flatMap fun a => (f a).toList)

section Lawful

variable [LawfulEqOrd α] [LawfulEqOrd β]

/-- An image holds what some member is sent to. -/
theorem mem_image {f : α → β} {s : FiniteSet α} {b : β} : b ∈ image f s ↔ ∃ a ∈ s, f a = b := by
  simp [image, mem_ofList_iff]

/-- A union over a set holds what some member's set holds. -/
theorem mem_bind {s : FiniteSet α} {f : α → FiniteSet β} {b : β} :
    b ∈ bind s f ↔ ∃ a ∈ s, b ∈ f a := by
  simp [bind, mem_ofList_iff]

end Lawful

/-! ## The order of sets -/

instance : Ord (FiniteSet α) := ⟨compareOn ExtTreeSet.toList⟩

instance : TransOrd (FiniteSet α) :=
  inferInstanceAs (TransCmp (compareOn (ExtTreeSet.toList : FiniteSet α → List α)))

instance [LawfulEqOrd α] : LawfulEqOrd (FiniteSet α) where
  eq_of_compare {s t} h := by
    have h : compare s.toList t.toList = .eq := h
    exact ExtTreeSet.toList_inj.1 (LawfulEqOrd.eq_of_compare h)

end FiniteSet

end FiniteAutomata
