import TreeSieve.Text

/-!
# Paths as text

A path is a text in which slashes separate names. Everything here is lexical: no file is looked at,
and `..` removes the name before it even where that name is a link to somewhere else.

A path has two written forms besides the one it was given in. `plain` is the form in which results
are printed: it has no empty names and no `.`, but keeps `..`. `absolute` is the form that rules
are matched against: it begins at the root and has no `..` either.
-/

namespace TreeSieve.Path

open TreeSieve.Sym

/-- The name of the directory itself. -/
abbrev here : Text := [.char '.']

/-- The name of the directory above. -/
abbrev above : Text := [.char '.', .char '.']

def isAbsolute (path : Text) : Bool := path.head? == some slash

/-- The names of a path, without the empty ones and the ones that stay in place. -/
def names (path : Text) : List Text :=
  (Text.pieces slash path).filter fun name => name ≠ [] && name ≠ here

/-- The slashes that a path begins with, in written form. Exactly two stay two. -/
def anchor (path : Text) : Text :=
  match (path.takeWhile (· = slash)).length with
  | 0 => []
  | 2 => [slash, slash]
  | _ => [slash]

/-- A path from the slashes that it begins with and its names. -/
def ofNames (anchor : Text) (names : List Text) : Text :=
  match anchor ++ Text.joinWith [slash] names with
  | [] => here
  | path => path

def plain (path : Text) : Text := ofNames (anchor path) (names path)

/-- A path below another one. An absolute path stands alone. -/
def join (parent path : Text) : Text :=
  if isAbsolute path then path
  else if parent = [] ∨ parent.getLast? = some slash then parent ++ path
  else parent ++ slash :: path

/-- The names that remain when each `..` removes the name before it. At the root it removes
nothing. The names passed so far are given last one first. -/
def climb : (passed : List Text) → List Text → List Text
  | passed, [] => passed.reverse
  | passed, name :: rest =>
    if name = above then climb passed.tail rest else climb (name :: passed) rest

/-- The form of a path that begins at the root and has no `..`, seen from a working directory,
which is absolute. -/
def absolute (workingDirectory path : Text) : Text :=
  let path := join workingDirectory path
  ofNames (anchor path) (climb [] (names path))

/-- What follows the last slash of a path. -/
def lastName (path : Text) : Text := (path.reverse.takeWhile (· ≠ slash)).reverse

/-- What comes before the last slash of a path, without slashes at its end unless it has nothing
else. -/
def parent (path : Text) : Text :=
  let upToSlash := (path.reverse.dropWhile (· ≠ slash)).reverse
  match Text.dropEndWhile (· = slash) upToSlash with
  | [] => upToSlash
  | stem => stem

def trimmed (path : Text) : Text := Text.dropEndWhile (· = slash) path

/-- Whether a name is one that listings hide. -/
def isHiddenName (name : Text) : Bool := name.head? == some (.char '.')

def isHidden (path : Text) : Bool := isHiddenName (lastName path)

end TreeSieve.Path
