/-!
# Ranges of code points

A property of characters is given by the ascending list of the ranges of code points that have
it. `contains` walks the list only as far as the code point; `contains_iff` says that on an
ascending list this finds every range that holds it.
-/

namespace FiniteAutomata.Unicode

/-- Ranges of code points, each by its first and last one. -/
abbrev Ranges := List (Nat × Nat)

namespace Ranges

/-- No range is empty, the first starts at `least` or later, and each other one after the end of
the one before it. -/
def ascendingFrom : Nat → Ranges → Bool
  | _, [] => true
  | least, (first, last) :: rest =>
    least ≤ first && first ≤ last && ascendingFrom (last + 1) rest

/-- Whether a code point lies in one of the ranges. -/
def contains : Ranges → Nat → Bool
  | [], _ => false
  | (first, last) :: rest, n => first ≤ n && (n ≤ last || contains rest n)

/-- Every range of an ascending list starts at its bound or later. -/
theorem le_of_ascendingFrom {least : Nat} {ranges : Ranges}
    (h : ranges.ascendingFrom least = true) : ∀ r ∈ ranges, least ≤ r.1 := by
  induction ranges generalizing least with
  | nil => simp
  | cons r rest ih =>
    simp only [ascendingFrom, Bool.and_eq_true, decide_eq_true_eq] at h
    intro s hs
    rcases List.mem_cons.1 hs with rfl | hs
    · exact h.1.1
    · have := ih h.2 s hs
      omega

/-- On ascending ranges the walk finds every range that holds the code point. -/
theorem contains_iff {least : Nat} {ranges : Ranges} (h : ranges.ascendingFrom least = true)
    (n : Nat) : ranges.contains n = true ↔ ∃ r ∈ ranges, r.1 ≤ n ∧ n ≤ r.2 := by
  induction ranges generalizing least with
  | nil => simp [contains]
  | cons r rest ih =>
    simp only [ascendingFrom, Bool.and_eq_true, decide_eq_true_eq] at h
    simp only [contains, Bool.and_eq_true, Bool.or_eq_true, decide_eq_true_eq, ih h.2,
      List.mem_cons, exists_eq_or_imp]
    constructor
    · rintro ⟨h₁, h₂ | h₂⟩
      · exact .inl ⟨h₁, h₂⟩
      · exact .inr h₂
    · rintro (⟨h₁, h₂⟩ | ⟨s, hs, h₁, h₂⟩)
      · exact ⟨h₁, .inl h₂⟩
      · have := le_of_ascendingFrom h.2 s hs
        exact ⟨by omega, .inr ⟨s, hs, h₁, h₂⟩⟩

end Ranges

end FiniteAutomata.Unicode
