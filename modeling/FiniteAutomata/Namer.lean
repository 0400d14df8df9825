/-!
# Namers

A namer hands out the names of its stem followed by 0, 1, 2 and so on. It is a value: whoever
keeps an old one can hand out the same names again.
-/

namespace FiniteAutomata

/-- A source of names. -/
structure Namer where
  /-- The character that every name starts with. -/
  stem : Char
  /-- The number of the next name. -/
  next : Nat := 0
  deriving DecidableEq

namespace Namer

/-- The name with the given stem and number. -/
def nameOf (stem : Char) (n : Nat) : String := String.singleton stem ++ toString n

/-- The name that is handed out next. -/
def name (namer : Namer) : String := nameOf namer.stem namer.next

/-- The namer after it has handed out some names. -/
def advance (namer : Namer) (count : Nat) : Namer := { namer with next := namer.next + count }

end Namer

end FiniteAutomata
