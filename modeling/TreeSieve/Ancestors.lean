import TreeSieve.Text

/-!
# Directories above a reported file

When directories are listed instead of files, a directory is listed if a reported file lies
anywhere below it. A directory becomes live when one of its files is reported. When the walk leaves
a live directory, it is put aside for output and the directory above it becomes live. Directories
are left deepest first, so what is put aside comes out in reverse order.
-/

namespace TreeSieve

/-- The live directories and the paths put aside. -/
structure Ancestors where
  /-- The keys of the live directories. -/
  live : List Text := []
  /-- The paths put aside, the last one first. -/
  pending : List Text := []
  deriving DecidableEq

namespace Ancestors

def isLive (a : Ancestors) (key : Text) : Bool := a.live.contains key

def markLive (a : Ancestors) (key : Text) : Ancestors :=
  { a with live := if a.isLive key then a.live else key :: a.live }

/-- Leaves a directory. A live one is put aside with its path, and the directory above it, if there
is one, becomes live. -/
def leave (a : Ancestors) (key path : Text) (above : Option Text) : Ancestors :=
  if a.isLive key then
    let a := { a with live := a.live.filter (· ≠ key), pending := path :: a.pending }
    match above with
    | some above => a.markLive above
    | none => a
  else a

/-- The paths put aside that are taken out when at most `limit` are wanted, and what remains. -/
def drain (a : Ancestors) (limit : Option Nat) : List Text × Ancestors :=
  match limit with
  | none => (a.pending, { a with pending := [] })
  | some n => (a.pending.take n, { a with pending := a.pending.drop n })

end Ancestors

end TreeSieve
