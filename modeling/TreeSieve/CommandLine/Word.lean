import TreeSieve.CommandLine.UsageError

/-!
# Words of the command line

A word is an operand, an option or the separator `--`, after which all words are operands. A long
option may be cut short as long as it stays unambiguous, and its value can follow a `=`. Options of
one letter can share a word, and the last of them can have its value in the same word. A word that
begins with a hyphen but is no option is still an operand if it is the hyphen alone or has a space
in it.

These are the rules for arguments up to release 3.11.7. Since release 3.11.8 words like `-p=--`,
`-d=a`, `-vx` and `-vn=NAME` are read in another way.
-/

namespace TreeSieve.CommandLine

inductive Word where
  | operand (text : Text)
  | separator
  /-- An option by one of its names, with what is attached to the name. -/
  | flagged (flag : Flag) (name : Text) (attached : Option Text)
  /-- What looks like an option but is none. -/
  | unknown (text : Text)
  deriving DecidableEq

namespace Word

/-- The mark of an option. -/
abbrev hyphen : Sym := .char '-'

/-- The word that makes all words after it operands. -/
abbrev separatorText : Text := [hyphen, hyphen]

/-- The two parts of a text around its first equals sign. -/
def splitAtEquals (t : Text) : Text × Option Text :=
  match t.dropWhile (· ≠ .char '=') with
  | _ :: value => (t.takeWhile (· ≠ .char '='), some value)
  | [] => (t, none)

/-- The readings of a word as an option whose name is cut short or has its value joined to it. -/
def readings (t : Text) : List Word :=
  if separatorText.isPrefixOf t then
    let (beginning, value) := splitAtEquals t
    (Flag.table.filter fun (name, _) => beginning.isPrefixOf name).map fun (name, flag) =>
      .flagged flag name value
  else
    (Flag.table.filter fun (name, _) => name = t.take 2).map fun (name, flag) =>
      .flagged flag name (some (t.drop 2))

def name : Word → Text
  | .flagged _ name _ => name
  | _ => []

/-- What a word is that is not the separator. -/
def classify (t : Text) : Except UsageError Word :=
  if t.head? ≠ some hyphen then .ok (.operand t)
  else
    match Flag.ofSpelling? t with
    | some flag => .ok (.flagged flag t none)
    | none =>
      if t = [hyphen] then .ok (.operand t)
      else
        match splitAtEquals t with
        | (name, value) =>
          match Flag.ofSpelling? name with
          | some flag => .ok (.flagged flag name value)
          | none =>
            match readings t with
            | [] => .ok (if t.contains (.char ' ') then .operand t else .unknown t)
            | [word] => .ok word
            | words => .error (.ambiguous t (words.map Word.name))

def ofTexts : List Text → Except UsageError (List Word)
  | [] => .ok []
  | t :: rest =>
    if t = separatorText then .ok (.separator :: rest.map .operand)
    else do
      let word ← classify t
      return word :: (← ofTexts rest)

/-- The options of one letter that share a word: each with what is attached to it. The text is what
comes after the first of them. -/
def cluster (flag : Flag) : Text → Except UsageError (List (Flag × Option Text))
  | [] => .ok [(flag, none)]
  | s :: rest =>
    if flag.takesValue then .ok [(flag, some (s :: rest))]
    else
      match Flag.ofSpelling? [hyphen, s] with
      | none => .error (.unexpectedValue flag (s :: rest))
      | some next => do return (flag, none) :: (← cluster next rest)

/-- The options that a word gives, each with what is attached to it. Only options of one letter can
share a word. -/
def options (flag : Flag) (name : Text) (attached : Option Text) :
    Except UsageError (List (Flag × Option Text)) :=
  match attached with
  | none => .ok [(flag, none)]
  | some value =>
    if flag.takesValue then .ok [(flag, some value)]
    else if value ≠ [] ∧ !separatorText.isPrefixOf name then cluster flag value
    else .error (.unexpectedValue flag value)

end Word

end TreeSieve.CommandLine
