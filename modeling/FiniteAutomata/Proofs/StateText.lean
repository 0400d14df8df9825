import FiniteAutomata.State
import Mathlib.Data.String.Basic
import Std.Data.String.ToInt

/-!
# Texts of characters and numbers

States are told apart by their texts. The texts of characters are in the order of the characters,
whereas numbers are not in the order of their numerals. A numeral has digits and a sign in it and
nothing else.
-/

namespace FiniteAutomata

open Std

/-- The texts of characters are in the order of the characters. -/
theorem compare_text_char (c d : Char) :
    compare (StateText.text c) (StateText.text d) = compare c d := by
  have hlt : String.singleton c < String.singleton d ↔ c < d := by
    rw [String.lt_iff_toList_lt, String.toList_singleton, String.toList_singleton,
      List.cons_lt_cons_iff]
    simp
  have heq : String.singleton c = String.singleton d ↔ c = d := by
    rw [← String.toList_inj, String.toList_singleton, String.toList_singleton, List.singleton_inj]
  show compareOfLessAndEq (String.singleton c) (String.singleton d) = compareOfLessAndEq c d
  simp only [compareOfLessAndEq, hlt, heq]

/-- Characters are told apart by their texts. -/
theorem text_char_injective : Function.Injective (StateText.text : Char → String) := by
  intro c d h
  have hself : compare (StateText.text d) (StateText.text d) = .eq := ReflCmp.compare_self
  have hcompare := compare_text_char c d
  rw [h, hself] at hcompare
  exact LawfulEqOrd.eq_of_compare hcompare.symm

/-- Numbers are told apart by their numerals. -/
theorem text_int_injective : Function.Injective (StateText.text : Int → String) :=
  fun _ _ h => Int.repr_inj.1 h

/-- A numeral has no character but digits and a sign. -/
theorem eq_or_isDigit_of_mem_text_int {i : Int} {c : Char} (h : c ∈ (StateText.text i).toList) :
    c = '-' ∨ c.isDigit = true := by
  have hdigits {n : ℕ} (hn : c ∈ n.repr.toList) : c.isDigit = true := by
    rw [Nat.toList_repr] at hn
    exact Nat.isDigit_of_mem_toDigits (by decide) (by decide) hn
  replace h : c ∈ i.repr.toList := h
  rw [Int.repr_eq_if] at h
  split at h
  · exact .inr (hdigits h)
  · rw [String.toList_append, List.mem_append] at h
    exact h.imp List.mem_singleton.1 hdigits

end FiniteAutomata
