import TreeSieve.Text

/-!
# White space

Rule lines are trimmed of white space. This is the white space of Unicode together with the four
separators `U+001C` to `U+001F`. The zero-width space and the byte order mark are not white space.
-/

namespace TreeSieve.Sym

/-- The first and last code points of the runs of white space. -/
def blankRanges : List (Nat × Nat) :=
  [(0x09, 0x0D), (0x1C, 0x20), (0x85, 0x85), (0xA0, 0xA0), (0x1680, 0x1680), (0x2000, 0x200A),
   (0x2028, 0x2029), (0x202F, 0x202F), (0x205F, 0x205F), (0x3000, 0x3000)]

def isBlank (s : Sym) : Bool := blankRanges.any fun (lo, hi) => lo ≤ s.code && s.code ≤ hi

end TreeSieve.Sym
