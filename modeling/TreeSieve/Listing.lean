import TreeSieve.Disk

/-!
# Listings

The children of a directory in the order of their names, each with the path under which it is
shown. The path can be built on another form of the directory's path than the one that is listed.
-/

namespace TreeSieve

/-- A child of a listed directory. -/
structure Entry where
  name : Text
  /-- The name, joined to the directory's path as it was given. -/
  path : Text
  isDirectory : Bool
  isHidden : Bool
  deriving DecidableEq

/-- An entry as it is shown in messages. -/
def Entry.describe (e : Entry) : Text :=
  "DirectoryEntry(" ++ e.path.quoted ++ ", " ++
    (if e.isDirectory then ("dir" : Text) else "file") ++ ")"

/-- The children of a directory in the order of their names. `shownAs` is the directory's path in
the paths of the children. Links count as what they lead to only when they are followed. -/
def Disk.scan (d : Disk) (directory shownAs : Text) (followLinks : Bool) :
    Except Fault (List Entry) := do
  let children ← d.entries directory
  let sorted := children.mergeSort fun a b => a.1.le b.1
  return sorted.map fun child =>
    { name := child.1
      path := Path.join shownAs child.1
      isDirectory := d.entryIsDirectory directory followLinks child
      isHidden := Path.isHiddenName child.1 }

end TreeSieve
