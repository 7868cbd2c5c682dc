import TreeSieve.Text

/-!
# Text as bytes

Names and file contents are stored as bytes in UTF-8. `decode` keeps every byte: one that belongs
to no well-formed character becomes a symbol of its own, so `encode` gives the bytes back. Rule
files are text for people, and there `decodeLossy` puts the replacement character in the place of
what cannot be decoded.
-/

namespace TreeSieve.Utf8

/-- The character whose encoding the bytes begin with, if there is one. A character takes at most
four bytes, and overlong forms and surrogates are no characters. -/
def firstChar? (bytes : List UInt8) : Option Char :=
  (bytes.take 4).toByteArray.utf8DecodeChar? 0

/-- `decode` after the given number of bytes, which a character already read has taken. -/
def decodeFrom : (skip : Nat) → List UInt8 → Text
  | _, [] => []
  | skip + 1, _ :: rest => decodeFrom skip rest
  | 0, b :: rest =>
    match firstChar? (b :: rest) with
    | some c => .char c :: decodeFrom (c.utf8Size - 1) rest
    | none => .raw b :: decodeFrom 0 rest

/-- The text of a byte string. A byte that starts no well-formed character stands for itself. -/
def decode (bytes : List UInt8) : Text := decodeFrom 0 bytes

def encodeSym : Sym → List UInt8
  | .char c => String.utf8EncodeChar c
  | .raw b => [b]

def encode (t : Text) : List UInt8 := t.flatMap encodeSym

/-! ## Decoding with replacement -/

/-- A byte that can stand second or later in an encoded character. -/
def isContinuation (b : UInt8) : Bool := 0x80 ≤ b && b ≤ 0xBF

/-- Whether two bytes can begin an encoded character of three or four bytes. The second byte is
restricted where a free choice would give an overlong form, a surrogate or a number too large. -/
def opensLong (first second : UInt8) : Bool :=
  if first = 0xE0 then 0xA0 ≤ second && second ≤ 0xBF
  else if first = 0xED then 0x80 ≤ second && second ≤ 0x9F
  else if first = 0xF0 then 0x90 ≤ second && second ≤ 0xBF
  else if first = 0xF4 then 0x80 ≤ second && second ≤ 0x8F
  else 0xE1 ≤ first && first ≤ 0xF3 && isContinuation second

/-- How many bytes after the first one belong to the same malformed part. The part is the longest
beginning of an encoded character, or a single byte. -/
def malformedTail : List UInt8 → Nat
  | first :: second :: third :: _ =>
    if opensLong first second then
      if 0xF0 ≤ first && isContinuation third then 2 else 1
    else 0
  | [first, second] => if opensLong first second then 1 else 0
  | _ => 0

/-- `decodeLossy` after the given number of bytes, which belong to what was read before. -/
def decodeLossyFrom : (skip : Nat) → List UInt8 → Text
  | _, [] => []
  | skip + 1, _ :: rest => decodeLossyFrom skip rest
  | 0, b :: rest =>
    match firstChar? (b :: rest) with
    | some c => .char c :: decodeLossyFrom (c.utf8Size - 1) rest
    | none => .char '\uFFFD' :: decodeLossyFrom (malformedTail (b :: rest)) rest

def decodeLossy (bytes : List UInt8) : Text := decodeLossyFrom 0 bytes

end TreeSieve.Utf8
