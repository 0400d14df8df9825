import FiniteAutomata.Regex.Error
import FiniteAutomata.Regex.Token

/-!
# Postfix order

Tokens are put in postfix order by keeping operators pending until their right operand is
complete. An operator completes the pending ones that bind as strongly as itself or more, and a
closing parenthesis all those since its partner. Only the parentheses are checked: operands may be
missing, which shows when the postfix form is used.
-/

namespace FiniteAutomata.Regex

/-- What waits for the end of its operand. -/
inductive Pending where
  /-- An open parenthesis, with its position. -/
  | opening (position : Nat)
  /-- An operator. -/
  | operator (o : Operator)
  deriving DecidableEq

namespace Pending

/-- The pending operators since the innermost open parenthesis, innermost first, and that
parenthesis with all that was pending before it. -/
def sinceOpening : List Pending → List Operator × Option (Nat × List Pending)
  | [] => ([], none)
  | opening position :: rest => ([], some (position, rest))
  | operator o :: rest =>
    let found := sinceOpening rest
    (o :: found.1, found.2)

/-- The innermost pending operators that bind at least as strongly as the given one, and what
stays pending. -/
def completedBy (o : Operator) : List Pending → List Operator × List Pending
  | operator top :: rest =>
    if o.strength ≤ top.strength then
      let found := completedBy o rest
      (top :: found.1, found.2)
    else ([], operator top :: rest)
  | pending => ([], pending)

end Pending

/-- A conversion on its way through the tokens. -/
structure Conversion where
  /-- The tokens put in order so far, the latest first. -/
  written : List Token
  /-- What is pending, the innermost first. -/
  pending : List Pending
  deriving DecidableEq

namespace Conversion

/-- Puts operators after what is written. -/
def write (s : Conversion) (operators : List Operator) (pending : List Pending) : Conversion :=
  ⟨(operators.map Token.operator).reverse ++ s.written, pending⟩

/-- Takes the token at a position. -/
def read (s : Conversion) (position : Nat) : Token → Except Malformed Conversion
  | .symbol c => .ok ⟨.symbol c :: s.written, s.pending⟩
  | .opening => .ok ⟨s.written, .opening position :: s.pending⟩
  | .closing =>
    match Pending.sinceOpening s.pending with
    | (operators, some (_, pending)) => .ok (s.write operators pending)
    | (_, none) => .error ⟨position, .unmatchedClosing⟩
  | .operator o =>
    let completed := Pending.completedBy o s.pending
    .ok (s.write completed.1 (.operator o :: completed.2))

/-- Takes the tokens from a position on. -/
def readAll (s : Conversion) (position : Nat) : List Token → Except Malformed Conversion
  | [] => .ok s
  | t :: rest =>
    match s.read position t with
    | .ok next => next.readAll (position + 1) rest
    | .error e => .error e

/-- Completes all that is pending. -/
def finish (s : Conversion) : Except Malformed (List Token) :=
  match Pending.sinceOpening s.pending with
  | (operators, none) => .ok (s.write operators []).written.reverse
  | (_, some (position, _)) => .error ⟨position, .unmatchedOpening⟩

end Conversion

/-- The tokens in postfix order, without parentheses. -/
def toPostfix (tokens : List Token) : Except Malformed (List Token) :=
  match Conversion.readAll ⟨[], []⟩ 0 tokens with
  | .ok s => s.finish
  | .error e => .error e

end FiniteAutomata.Regex
