import TreeSieve.Glob

/-!
# Globs as regular expressions

The regular expression of a glob, in the syntax of the usual backtracking engines, where `.` does
not match a line feed.
-/

namespace TreeSieve

open TreeSieve.Sym

/-- The symbols that have a meaning in regular expressions outside a set, and the white space of
ASCII. -/
def regexSpecials : Text :=
  Text.ofChars
    ['(', ')', '[', ']', '\x7b', '\x7d', '?', '*', '+', '-', '|', '^', '$', '\\', '.', '&', '~',
     '#', ' ', '\t', '\n', '\r', '\x0b', '\x0c']

/-- The regular expression that matches one symbol. -/
def Sym.regex (s : Sym) : Text := if regexSpecials.contains s then [backslash, s] else [s]

def Text.regex (t : Text) : Text := t.flatMap Sym.regex

namespace SetItem

/-- The symbols that have a meaning inside a set, the hyphen apart. -/
def specials : Text := Text.ofChars ['\\', '[', ']', '^', '&', '~', '|']

/-- A symbol as it stands in a set. -/
def symRegex (s : Sym) : Text := if specials.contains s then [backslash, s] else [s]

def regex : SetItem → Text
  | single s => symRegex s
  | range lo hi => symRegex lo ++ .char '-' :: symRegex hi

end SetItem

namespace Glob

def Token.regex : Token → Text
  | .literal s => s.regex
  | .set negated items =>
    Text.ofChars (if negated then ['[', '^'] else ['[']) ++ items.flatMap SetItem.regex ++
      [.char ']']
  | .any => Text.ofChars ['.']
  | .star => Text.ofChars ['[', '^', '/', ']', '*']
  | .deep => Text.ofChars ['(', '/', '.', '*', ')', '?']

def regex (g : Glob) : Text := g.flatMap Token.regex

end Glob

end TreeSieve
