import FiniteAutomata.Unicode.GraphemeExtend
import FiniteAutomata.Unicode.Printable

/-!
# Quoted text

The quoted form of a text shows every character of it: the control characters with a short
escape by that escape, the quote and the backslash behind a backslash, a character that would be
invisible or join the one before it by its code point, and all else as it is.
-/

namespace FiniteAutomata.Text

/-- The quote around a text. -/
def doubleQuote : Char := '\x22'

/-- The quote around a single character. -/
def singleQuote : Char := '\x27'

/-- A code point as an escape, in hexadecimal digits without padding. -/
def codePointEscape (c : Char) : String :=
  "\\u\x7b" ++ String.ofList (Nat.toDigits 16 c.toNat) ++ "\x7d"

/-- A character as it stands between two of the given quotes. -/
def escaped (quote c : Char) : String :=
  if c = '\x00' then "\\0"
  else if c = '\t' then "\\t"
  else if c = '\r' then "\\r"
  else if c = '\n' then "\\n"
  else if c = '\\' then "\\\\"
  else if c = quote then String.ofList ['\\', c]
  else if Unicode.joinsPrevious c || !Unicode.isPrintable c then codePointEscape c
  else String.singleton c

/-- Characters between two of the given quotes. -/
def quotedWith (quote : Char) (cs : List Char) : String :=
  String.singleton quote ++ String.join (cs.map (escaped quote)) ++ String.singleton quote

/-- A text in double quotes. -/
def quoted (s : String) : String := quotedWith doubleQuote s.toList

/-- A character in single quotes. -/
def quotedChar (c : Char) : String := quotedWith singleQuote [c]

end FiniteAutomata.Text
