import TreeSieve.Glob.Regex
import TreeSieve.Path
import TreeSieve.Text.Blank

/-!
# Rules

A rule is one line of a rule file, read in the directory that declares it. It matches absolute
paths below that directory, where the path of a directory ends in a slash. A line that begins with
`!` makes a negated rule, which brings back what other rules exclude, and a line that ends in `/`
makes a rule for directories only.

Blank lines, comments and lines with nothing left after their markers make no rule.
-/

namespace TreeSieve

open TreeSieve.Sym

/-- A rule. It matches a path that is its anchor followed by a text that its glob accepts. -/
structure Rule where
  source : Text
  /-- The path of the declaring directory, without slashes at its end. -/
  anchor : Text
  directoryOnly : Bool
  negated : Bool
  /-- What follows the anchor in the paths that the rule matches. -/
  glob : Glob
  deriving DecidableEq

namespace Rule

/-! ## Reading a line -/

/-- Whether a line is blank or a comment. A comment ends at a line feed, and there may be no more
than that after it. -/
def isComment (line : Text) : Bool :=
  match line.dropWhile isBlank with
  | [] => true
  | .char '#' :: note => note.dropWhile (· ≠ lineFeed) ∈ [[], [lineFeed]]
  | _ => false

/-- A text in reverse without the white space at its front, up to a white-space symbol that has a
backslash before it. -/
def trimReversed : Text → Text
  | [] => []
  | [s] => if s.isBlank then [] else [s]
  | s :: t :: rest =>
    if s.isBlank && t ≠ backslash then trimReversed (t :: rest) else s :: t :: rest

/-- A text without the white space at its end. A white-space symbol after a backslash stays, and so
does everything before it. -/
def trimEnd (t : Text) : Text := (trimReversed t.reverse).reverse

/-- A text without the backslashes that stand before white space. -/
def unescapeBlanks : Text → Text
  | [] => []
  | [s] => [s]
  | s :: t :: rest =>
    if s = backslash ∧ t.isBlank then unescapeBlanks (t :: rest)
    else s :: unescapeBlanks (t :: rest)

/-- A text without a backslash in front and without those that stand before white space. -/
def unescape : Text → Text
  | .char '\\' :: t => unescapeBlanks t
  | t => unescapeBlanks t

/-- Whether a line is negated, and its text without the marker, the white space around it and the
backslashes that protected it. -/
def split (line : Text) : Bool × Text :=
  match line.dropWhile isBlank with
  | .char '!' :: t => (true, unescape (trimEnd t))
  | t => (false, unescape (trimEnd t))

/-- Whether the text of a rule is for directories only. -/
def endsInSlash (t : Text) : Bool := t.getLast? == some slash

/-- What stands for any number of directories. -/
abbrev anywhere : Text := [.char '/', .char '*', .char '*']

/-- The glob pattern of the text of a rule. A text without a slash in front matches at any depth,
and one without a slash at its end matches a directory's contents too. -/
def pattern (t : Text) : Text :=
  let t := if t.head? = some slash then t else anywhere ++ slash :: t
  if endsInSlash t then t else t ++ anywhere

/-- The rule that a line declares in the directory with the given path. -/
def ofLine? (directory line : Text) : Option Rule :=
  if isComment line then none
  else
    match split line with
    | (_, []) => none
    | (negated, t) =>
      some
        { source := line
          anchor := Path.trimmed directory
          directoryOnly := endsInSlash t
          negated
          glob := Glob.read (pattern t) }

/-! ## Matching -/

def accepts (r : Rule) (path : Text) : Bool :=
  match r.anchor.isPrefixOf? path with
  | some rest => r.glob.accepts rest
  | none => false

/-- The regular expression that matches the same paths. -/
def regex (r : Rule) : Text := r.anchor.regex ++ r.glob.regex ++ Text.ofChars ['\\', 'Z']

end Rule

end TreeSieve
