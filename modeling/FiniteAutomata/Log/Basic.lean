/-!
# Logs

A computation that keeps a log returns the entries beside its value. Computations in sequence have
their entries in sequence.
-/

namespace FiniteAutomata

namespace Log

/-- How much detail an entry is about. -/
inductive Level where
  /-- A stage of the work. -/
  | debug
  /-- A single step. -/
  | trace
  deriving DecidableEq

/-- The level as it stands before an entry. -/
def Level.text : Level → String
  | debug => "DEBUG"
  | trace => "TRACE"

/-- A line of a log. -/
structure Entry where
  /-- The level of detail. -/
  level : Level
  /-- What is said. -/
  message : String
  deriving DecidableEq

/-- The line with its level. -/
def Entry.text (e : Entry) : String := e.level.text ++ " " ++ e.message

end Log

/-- A value and the log of its computation. -/
structure Logged (α : Type) where
  /-- The value. -/
  value : α
  /-- The entries, the earliest first. -/
  log : List Log.Entry

instance : Monad Logged where
  pure a := ⟨a, []⟩
  bind x f :=
    let y := f x.value
    ⟨y.value, x.log ++ y.log⟩

end FiniteAutomata
