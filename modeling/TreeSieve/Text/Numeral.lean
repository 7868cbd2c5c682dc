import TreeSieve.Text.Blank
import TreeSieve.Text.Quoted

/-!
# Numerals

The reading of integers and counts. An integer is written in decimal digits of any script, with an
optional sign, with single underscores between digits and with white space around it. There is a
limit on the number of digits. A count is an integer that is not negative.
-/

namespace TreeSieve.Numeral

/-- The code points of the zeros of all scripts. Each is followed by the digits one to nine. -/
def zeros : List Nat :=
  [0x30, 0x660, 0x6F0, 0x7C0, 0x966, 0x9E6, 0xA66, 0xAE6, 0xB66, 0xBE6, 0xC66, 0xCE6, 0xD66, 0xDE6,
   0xE50, 0xED0, 0xF20, 0x1040, 0x1090, 0x17E0, 0x1810, 0x1946, 0x19D0, 0x1A80, 0x1A90, 0x1B50,
   0x1BB0, 0x1C40, 0x1C50, 0xA620, 0xA8D0, 0xA900, 0xA9D0, 0xA9F0, 0xAA50, 0xABF0, 0xFF10, 0x104A0,
   0x10D30, 0x11066, 0x110F0, 0x11136, 0x111D0, 0x112F0, 0x11450, 0x114D0, 0x11650, 0x116C0,
   0x11730, 0x118E0, 0x11950, 0x11C50, 0x11D50, 0x11DA0, 0x16A60, 0x16AC0, 0x16B50, 0x1D7CE,
   0x1D7D8, 0x1D7E2, 0x1D7EC, 0x1D7F6, 0x1E140, 0x1E2F0, 0x1E950, 0x1FBF0]

/-- The value of a decimal digit of any script. -/
def digitValue? (s : Sym) : Option Nat :=
  (zeros.find? fun first => first ≤ s.code && s.code ≤ first + 9).map (s.code - ·)

/-- The most digits that a numeral may have. -/
def maxDigits : Nat := 4300

/-- The white space that may surround a numeral, besides that outside ASCII. -/
def isAsciiBlank (c : Char) : Bool := c = ' ' || ('\t' ≤ c && c ≤ '\r')

/-- The ASCII character in the place of a symbol: white space outside ASCII becomes a space, and a
digit outside ASCII the digit of the same value. -/
def asciiForm? : Sym → Option Char
  | .raw _ => none
  | .char c =>
    if c.toNat < 127 then some c
    else if (Sym.char c).isBlank then some ' '
    else (digitValue? (.char c)).map Nat.digitChar

/-- The values of the digits of an unsigned numeral, where an underscore stands only between two
digits. `afterDigit` says whether a digit was read last. -/
def digitValues? : (afterDigit : Bool) → List Char → Option (List Nat)
  | afterDigit, [] => if afterDigit then some [] else none
  | afterDigit, c :: rest =>
    if c = '_' ∧ afterDigit then digitValues? false rest
    else if c.isDigit then (digitValues? true rest).map ((c.toNat - '0'.toNat) :: ·)
    else none

/-- The value of an unsigned numeral. -/
def magnitude? (cs : List Char) : Option Nat := do
  let digits ← digitValues? false cs
  guard (digits.length ≤ maxDigits)
  return digits.foldl (fun n d => 10 * n + d) 0

/-- The characters without the white space at either end. -/
def trim (cs : List Char) : List Char :=
  ((cs.dropWhile isAsciiBlank).reverse.dropWhile isAsciiBlank).reverse

/-- The integer that a text writes. -/
def integer? (t : Text) : Option Int := do
  match trim (← t.mapM asciiForm?) with
  | '-' :: cs => return -(← magnitude? cs : Int)
  | '+' :: cs => return (← magnitude? cs)
  | cs => return (← magnitude? cs)

/-- Why a text is not a count. -/
inductive CountError where
  | malformed (text : Text)
  | negative (value : Int)
  deriving DecidableEq

def CountError.message : CountError → Text
  | .malformed text => "invalid integer value: " ++ text.quoted
  | .negative value => "must be non-negative, got " ++ Text.ofInt value

/-- The count that a text writes. -/
def count (t : Text) : Except CountError Nat :=
  match integer? t with
  | none => .error (.malformed t)
  | some (.ofNat n) => .ok n
  | some (.negSucc n) => .error (.negative (.negSucc n))

end TreeSieve.Numeral
