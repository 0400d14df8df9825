import FiniteAutomata.Unicode.Alphabetic

/-!
# Tokens of regular expressions

Every character of an expression is one token: a letter stands for itself, and six signs for the
parentheses and the operators. A token is written as the character that it is read from.
-/

namespace FiniteAutomata.Regex

/-- The operators. -/
inductive Operator where
  /-- Either operand. -/
  | union
  /-- One operand after the other. -/
  | concat
  /-- Any number of repetitions. -/
  | star
  /-- One repetition or more. -/
  | plus
  deriving DecidableEq

/-- How strongly an operator binds. -/
def Operator.strength : Operator → Nat
  | union => 0
  | concat => 1
  | star => 2
  | plus => 2

/-- The sign of an operator. -/
def Operator.toChar : Operator → Char
  | union => '|'
  | concat => '?'
  | star => '*'
  | plus => '+'

/-- The tokens. -/
inductive Token where
  /-- A letter. -/
  | symbol (c : Char)
  /-- An opening parenthesis. -/
  | opening
  /-- A closing parenthesis. -/
  | closing
  /-- An operator. -/
  | operator (o : Operator)
  deriving DecidableEq

namespace Token

/-- The token that a character stands for, if it is one of the signs or a letter. -/
def ofChar? (c : Char) : Option Token :=
  if c = '(' then some opening
  else if c = ')' then some closing
  else if c = '|' then some (operator .union)
  else if c = '*' then some (operator .star)
  else if c = '+' then some (operator .plus)
  else if c = '?' then some (operator .concat)
  else if Unicode.isAlphabetic c then some (symbol c)
  else none

/-- The character of a token. -/
def toChar : Token → Char
  | symbol c => c
  | opening => '('
  | closing => ')'
  | operator o => o.toChar

/-- Writing the token that was read gives back the character. -/
theorem toChar_of_ofChar? {c : Char} {t : Token} (h : ofChar? c = some t) : t.toChar = c := by
  grind [ofChar?, toChar, Operator.toChar]

/-- A letter is the token of itself: none of the signs is a letter. -/
theorem ofChar?_of_isAlphabetic {c : Char} (h : Unicode.isAlphabetic c = true) :
    ofChar? c = some (symbol c) := by
  have sign_ne {s : Char} (hs : Unicode.isAlphabetic s = false) : c ≠ s := by
    rintro rfl
    simp [hs] at h
  have : c ≠ '(' := sign_ne (by decide +kernel)
  have : c ≠ ')' := sign_ne (by decide +kernel)
  have : c ≠ '|' := sign_ne (by decide +kernel)
  have : c ≠ '*' := sign_ne (by decide +kernel)
  have : c ≠ '+' := sign_ne (by decide +kernel)
  have : c ≠ '?' := sign_ne (by decide +kernel)
  simp [ofChar?, *]

/-- Whether an operand may end with the token. -/
def endsOperand : Token → Bool
  | symbol _ => true
  | closing => true
  | operator .star => true
  | operator .plus => true
  | _ => false

/-- Whether an operand may begin with the token. -/
def beginsOperand : Token → Bool
  | symbol _ => true
  | opening => true
  | _ => false

/-- Tokens as text. -/
def render (tokens : List Token) : String := String.ofList (tokens.map toChar)

end Token

/-- The tokens with a concatenation wherever an operand ends and the next one begins. -/
def insertConcatenation : List Token → List Token
  | [] => []
  | [t] => [t]
  | s :: t :: rest =>
    if s.endsOperand && t.beginsOperand then
      s :: .operator .concat :: insertConcatenation (t :: rest)
    else s :: insertConcatenation (t :: rest)

end FiniteAutomata.Regex
