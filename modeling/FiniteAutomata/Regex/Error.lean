/-!
# What is wrong with a regular expression

An expression is refused for a character that is no token, or for tokens that do not fit. The
position counts characters, or tokens, from zero.
-/

namespace FiniteAutomata.Regex

/-- The ways in which tokens do not fit. -/
inductive Misfit where
  /-- A closing parenthesis that no open one precedes. -/
  | unmatchedClosing
  /-- An opening parenthesis that is never closed. -/
  | unmatchedOpening
  /-- An operator before its operands, or no operand at all. -/
  | missingOperand
  /-- A parenthesis where only symbols and operators may stand. -/
  | strayParenthesis
  /-- Operands that no operator joins. -/
  | leftoverOperands
  deriving DecidableEq

/-- The reason as messages give it. -/
def Misfit.reason : Misfit → String
  | unmatchedClosing => "unmatched closing parenthesis"
  | unmatchedOpening => "unmatched opening parenthesis"
  | missingOperand => "operator without enough operands"
  | strayParenthesis => "parenthesis in postfix expression"
  | leftoverOperands => "operands left without operator"

/-- Tokens that do not fit, and where. -/
structure Malformed where
  /-- The position of the token, or the number of tokens for a fault that shows at the end. -/
  position : Nat
  /-- What does not fit. -/
  misfit : Misfit
  deriving DecidableEq

/-- A result is an error for tokens that do not fit, with a given position and reason. -/
def Refuses {α : Type} (result : Except Malformed α) (position : Nat) (reason : String) : Prop :=
  ∃ misfit : Misfit, result = .error ⟨position, misfit⟩ ∧ misfit.reason = reason

/-- The message for tokens that do not fit. -/
def Malformed.message (e : Malformed) : String :=
  "malformed expression at token " ++ toString e.position ++ ": " ++ e.misfit.reason

/-- The reasons to refuse an expression. -/
inductive Error where
  /-- A character that is no token. -/
  | unexpectedCharacter (character : Char) (position : Nat)
  /-- Tokens that do not fit. -/
  | malformed (e : Malformed)
  deriving DecidableEq

/-- The message for a refused expression. -/
def Error.message : Error → String
  | unexpectedCharacter c position =>
    "unexpected character '" ++ String.singleton c ++ "' at position " ++ toString position
  | malformed e => e.message

end FiniteAutomata.Regex
