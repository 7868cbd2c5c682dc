import TreeSieve.Disk
import TreeSieve.Wildcard.NamePattern

/-!
# Wildcards in paths

A path argument with wildcards stands for the paths that match it. Each name of the argument is
matched against the entries of the directories that the names before it matched, and the name `**`
stands for any number of directories with everything in them. Hidden entries are matched only by
patterns that begin with a dot.

What cannot be listed has no matches, except that a path which the system does not take at all is
an error.
-/

namespace TreeSieve.Wildcard

open TreeSieve.Sym

def isIn (t : Text) : Bool := t.any fun s => s = .char '*' || s = .char '?' || s = .char '['

/-- The name that stands for any number of directories. -/
abbrev anyDepth : Text := [.char '*', .char '*']

/-- A name below a directory, where either of them can be missing. -/
def joinNames (directory name : Text) : Text :=
  if directory = [] ∨ name = [] then directory ++ name else Path.join directory name

/-- The names of the entries of a directory, or of its directories only. The path without names is
the working directory. -/
def namesIn (d : Disk) (onlyDirectories : Bool) (directory : Text) : Except Fault (List Text) :=
  let directory := if directory = [] then Path.here else directory
  match d.entries directory with
  | .ok children =>
    .ok ((children.filter fun child =>
      !onlyDirectories || d.entryIsDirectory directory true child).map (·.1))
  | .error .embeddedNul => .error .embeddedNul
  | .error _ => .ok []

/-- The paths below a directory, without the hidden ones and what is in those. At most `levels`
levels are entered. -/
def below (d : Disk) (onlyDirectories : Bool) :
    (levels : Nat) → Text → Except Fault (List Text)
  | 0, _ => .ok []
  | levels + 1, directory => do
    let names := (← namesIn d onlyDirectories directory).filter (!Path.isHiddenName ·)
    let found ← names.mapM fun name => do
      let deeper ← below d onlyDirectories levels (joinNames directory name)
      return name :: deeper.map (joinNames name)
    return found.flatten

/-- A number of levels that no path reaches: between two links on a path there are fewer names than
there are nodes, and a path has a limited number of links. -/
def levels (d : Disk) : Nat := (Disk.maxLinks + 1) * (d.root.size + 1)

/-- The names or paths below a directory that the last name of a pattern matches. -/
def matchesIn (d : Disk) (onlyDirectories : Bool) (directory name : Text) :
    Except Fault (List Text) := do
  if name = anyDepth then
    return [] :: (← below d onlyDirectories (levels d) directory)
  else if isIn name then
    let names ← namesIn d onlyDirectories directory
    let names := if Path.isHiddenName name then names else names.filter (!Path.isHiddenName ·)
    return names.filter (NamePattern.accepts name)
  else if name = [] then
    return if d.isDirectory directory then [[]] else []
  else
    return if d.hasEntry (joinNames directory name) then [name] else []

/-- The paths that match a pattern, in no particular order. -/
def paths (d : Disk) (onlyDirectories : Bool) (pattern : Text) : Except Fault (List Text) := do
  let directory := Path.parent pattern
  let name := Path.lastName pattern
  if !isIn pattern then
    let found := if name = [] then d.isDirectory directory else d.hasEntry pattern
    return if found then [pattern] else []
  else
    let directories ←
      if directory.length < pattern.length ∧ isIn directory then paths d true directory
      else pure [directory]
    let found ← directories.mapM fun directory => do
      return (← matchesIn d onlyDirectories directory name).map (Path.join directory)
    return found.flatten
termination_by pattern.length
decreasing_by exact And.left ‹_ ∧ isIn _ = true›

/-- The paths that match a pattern, in no particular order. The pattern `**` stands for the
working directory too, but there is no path for that. -/
def expand (d : Disk) (pattern : Text) : Except Fault (List Text) := do
  match ← paths d false pattern with
  | [] :: rest => return if pattern.take 2 = anyDepth then rest else [] :: rest
  | found => return found

end TreeSieve.Wildcard
