/-!
# Labels of transitions

A transition reads a symbol or nothing. Labels are ordered with epsilon first and the symbols by
code point.
-/

namespace FiniteAutomata

open Std

/-- What a transition reads. -/
inductive Label where
  /-- Nothing is read. -/
  | epsilon
  /-- One symbol is read. -/
  | symbol (c : Char)
  deriving DecidableEq

namespace Label

/-- The symbol that a label reads, if it reads one. -/
def symbol? : Label → Option Char
  | epsilon => none
  | symbol c => some c

/-- A label is known by the symbol that it reads. -/
theorem symbol?_inj {l m : Label} : l.symbol? = m.symbol? ↔ l = m := by
  cases l <;> cases m <;> simp [symbol?]

instance : Ord Label := ⟨compareOn symbol?⟩

instance : TransOrd Label := inferInstanceAs (TransCmp (compareOn symbol?))

instance : LawfulEqOrd Label where
  eq_of_compare {l m} h := by
    have h : compare l.symbol? m.symbol? = .eq := h
    exact symbol?_inj.1 (LawfulEqOrd.eq_of_compare h)

/-- Whether nothing is read. -/
def isEpsilon (l : Label) : Bool := l = epsilon

/-- A label as it is shown; the letter epsilon as a symbol looks like the empty label. -/
def text : Label → String
  | epsilon => "ε"
  | symbol c => String.singleton c

end Label

end FiniteAutomata
