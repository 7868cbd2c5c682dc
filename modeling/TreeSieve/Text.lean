/-!
# Text

File names are byte strings, and most of them are UTF-8. A name is read as a list of symbols: a
symbol is a Unicode character, or a single byte that belongs to no well-formed character. Every
such byte counts as one symbol, so patterns can match it and names that hold it can be sorted.

This module holds the type, the order by code point in which directories are listed, and the few
operations on texts that the other modules share.
-/

namespace TreeSieve

/-- One symbol of a text: a character, or a byte that no decoding explains. -/
inductive Sym where
  | char (c : Char)
  | raw (b : UInt8)
  deriving DecidableEq

namespace Sym

instance : Coe Char Sym := ⟨Sym.char⟩

/-- The position of a symbol in the order of code points. Undecodable bytes take the places
`0xDC80` to `0xDCFF`, which no character has. -/
def code : Sym → Nat
  | .char c => c.toNat
  | .raw b => 0xDC00 + b.toNat

abbrev slash : Sym := .char '/'

/-- The symbol that makes the next one literal. -/
abbrev backslash : Sym := .char '\\'

abbrev lineFeed : Sym := .char '\n'

/-- The symbol that no file name can hold. -/
abbrev nul : Sym := .char '\x00'

end Sym

/-- A text is a list of symbols. -/
abbrev Text := List Sym

instance : LawfulBEq Text := inferInstance

namespace Text

def ofChars (cs : List Char) : Text := cs.map Sym.char

def ofString (s : String) : Text := ofChars s.toList

instance : Coe String Text := ⟨ofString⟩

def ofNat (n : Nat) : Text := ofChars (Nat.toDigits 10 n)

/-- The decimal text of an integer, with `-` before a negative one. -/
def ofInt : Int → Text
  | .ofNat n => ofNat n
  | .negSucc n => '-' :: ofNat (n + 1)

/-- The order by code point, as dictionaries have it: a text comes before its extensions. -/
def le : Text → Text → Bool
  | [], _ => true
  | _ :: _, [] => false
  | a :: s, b :: t => a.code < b.code || (a.code == b.code && le s t)

def sort (ts : List Text) : List Text := ts.mergeSort le

/-- A text without the symbols at its end that satisfy a test. -/
def dropEndWhile (p : Sym → Bool) (t : Text) : Text := (t.reverse.dropWhile p).reverse

/-- The pieces of a text between the occurrences of a symbol. There is one more piece than there
are occurrences, so the empty text has one empty piece. -/
def pieces (sep : Sym) : Text → List Text
  | [] => [[]]
  | c :: s =>
    if c = sep then [] :: pieces sep s
    else match pieces sep s with
      | [] => [[c]]
      | p :: ps => (c :: p) :: ps

def joinWith (sep : Text) (ts : List Text) : Text := List.intercalate sep ts

end Text

end TreeSieve
