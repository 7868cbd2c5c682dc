import TreeSieve.Text.Printable

/-!
# Quoted text

Messages show a text between quotes, with escapes for what would not survive on a terminal. Single
quotes are used unless the text holds a single quote and no double one. The line feed, carriage
return and tab have escapes of their own, and other unprintable symbols are shown by number.
-/

namespace TreeSieve.Text

/-- The `width` hexadecimal digits at the low end of a number, in lower case. -/
def hexDigits : (width : Nat) → Nat → List Char
  | 0, _ => []
  | width + 1, n => hexDigits width (n / 16) ++ [Nat.digitChar (n % 16)]

/-- A symbol by its number, with two, four or eight digits as it needs them. -/
def numberEscape (s : Sym) : Text :=
  let n := s.code
  if n ≤ 0xFF then ofChars ('\\' :: 'x' :: hexDigits 2 n)
  else if n ≤ 0xFFFF then ofChars ('\\' :: 'u' :: hexDigits 4 n)
  else ofChars ('\\' :: 'U' :: hexDigits 8 n)

/-- The quote that encloses a text. -/
def quoteMark (t : Text) : Sym :=
  if t.contains (.char '\'') && !t.contains (.char '\"') then .char '\"' else .char '\''

/-- A symbol as it stands between the given quotes. -/
def quoteSym (mark s : Sym) : Text :=
  if s = mark ∨ s = .backslash then [.backslash, s]
  else if s = .char '\n' then ofChars ['\\', 'n']
  else if s = .char '\r' then ofChars ['\\', 'r']
  else if s = .char '\t' then ofChars ['\\', 't']
  else if s.isPrintable then [s]
  else numberEscape s

/-- A text between quotes. -/
def quoted (t : Text) : Text :=
  let mark := quoteMark t
  mark :: t.flatMap (quoteSym mark) ++ [mark]

end TreeSieve.Text
