import TreeSieve.Fault
import TreeSieve.Path
import TreeSieve.Text.Utf8

/-!
# A file system

A file system is a finite tree of directories, files, symbolic links and devices, seen from a
working directory. Some places can be unreadable: their directory cannot be listed or their file
cannot be read, though everything else about them is known.

`Disk.locate` follows a path name by name, the way the system does. Unlike the lexical operations
on paths, it goes into links, and `..` goes up from wherever a link has led. A place is named by
the names on the way to it from the root, so two paths lead to one directory exactly when they
lead to equal locations.
-/

namespace TreeSieve

open TreeSieve.Sym

inductive Device where
  /-- Takes whatever is written to it and keeps nothing. -/
  | null
  /-- Has no room for what is written to it. -/
  | full
  deriving DecidableEq

/-- What stands at a place. The entries of a directory are in the order in which the system
enumerates them. -/
inductive Node where
  | file (content : List UInt8)
  | link (target : Text)
  | device (kind : Device)
  | directory (entries : List (Text × Node))

/-- The names on the way to a place from the root. -/
abbrev Location := List Text

namespace Node

def isDirectory : Node → Bool
  | .directory _ => true
  | _ => false

def isLink : Node → Bool
  | .link _ => true
  | _ => false

def isFile : Node → Bool
  | .file _ => true
  | _ => false

/-- The node at the end of a way through directories. -/
def get? : Node → Location → Option Node
  | node, [] => some node
  | .directory entries, name :: rest =>
    match entries.lookup name with
    | some child => child.get? rest
    | none => none
  | _, _ :: _ => none

/-- An entry of a directory replaced, or put at its end. -/
def putEntry (name : Text) (node : Node) : List (Text × Node) → List (Text × Node)
  | [] => [(name, node)]
  | (n, old) :: rest => if n = name then (n, node) :: rest else (n, old) :: putEntry name node rest

/-- The tree with another node at the end of a way. The directories on the way have to exist. -/
def put : Node → Location → Node → Node
  | _, [], new => new
  | .directory entries, [name], new => .directory (putEntry name new entries)
  | .directory entries, name :: rest, new =>
    match entries.lookup name with
    | some child => .directory (putEntry name (child.put rest new) entries)
    | none => .directory entries
  | node, _ :: _, _ => node

mutual

/-- How many nodes there are in a tree. -/
def size : Node → Nat
  | .directory entries => 1 + sizeEntries entries
  | _ => 1

/-- How many nodes there are in the trees of a directory. -/
def sizeEntries : List (Text × Node) → Nat
  | [] => 0
  | (_, node) :: rest => node.size + sizeEntries rest

end

end Node

structure Disk where
  root : Node
  /-- Where relative paths begin. -/
  workingDirectory : Location := []
  /-- The places whose directory cannot be listed or whose file cannot be read. -/
  unreadable : List Location := []

namespace Disk

/-! ## Finding places -/

/-- The path of a location. -/
def pathOf (location : Location) : Text := slash :: Text.joinWith [slash] location

def workingPath (d : Disk) : Text := pathOf d.workingDirectory

/-- The steps of a path. A slash at the end is a step that stays in place, so that only a directory
can come before it. -/
def steps (path : Text) : List Text :=
  let names := (Text.pieces slash path).filter (· ≠ [])
  if path.getLast? = some slash then names ++ [Path.here] else names

/-- Where the steps of a path begin, when a path without a slash in front begins at a place. -/
def start (path : Text) (relativeTo : Location) : Location :=
  if Path.isAbsolute path then [] else relativeTo

/-- What is to be found at the end of a path. -/
inductive Sought where
  /-- What a link leads to. -/
  | target
  /-- A link itself. -/
  | entry
  /-- What a link leads to, or the place for a new file. -/
  | place
  deriving DecidableEq

/-- How many links a path may lead through. -/
def maxLinks : Nat := 40

def maxNameLength : Nat := 255

/-- Where steps lead from a place. -/
def follow (d : Disk) (sought : Sought) :
    (links : Nat) → Location → List Text → Except Fault Location
  | _, at_, [] => .ok at_
  | links, at_, step :: ahead =>
    match d.root.get? at_ with
    | some (.directory entries) =>
      if step = Path.here then d.follow sought links at_ ahead
      else if step = Path.above then d.follow sought links at_.dropLast ahead
      else
        match entries.lookup step with
        | some (.link target) =>
          if ahead = [] ∧ sought = .entry then .ok (at_ ++ [step])
          else
            match links with
            | 0 => .error .tooManyLinks
            | links + 1 => d.follow sought links (start target at_) (steps target ++ ahead)
        | some _ => d.follow sought links (at_ ++ [step]) ahead
        | none =>
          if maxNameLength < (Utf8.encode step).length then .error .nameTooLong
          else if ahead = [] ∧ sought = .place then .ok (at_ ++ [step])
          else .error .notFound
    | _ => .error .notDirectory
termination_by links _ ahead => (links, ahead.length)

def find (d : Disk) (sought : Sought) (path : Text) : Except Fault Location :=
  if nul ∈ path then .error .embeddedNul
  else if path = [] then .error .notFound
  else d.follow sought maxLinks (start path d.workingDirectory) (steps path)

def locate (d : Disk) (path : Text) : Except Fault Location := d.find .target path

/-- What stands at the place that a path leads to. -/
def node? (d : Disk) (path : Text) : Option Node :=
  match d.locate path with
  | .ok location => d.root.get? location
  | .error _ => none

def has (d : Disk) (path : Text) : Bool := (d.node? path).isSome

def isDirectory (d : Disk) (path : Text) : Bool := (d.node? path).any Node.isDirectory

def isFile (d : Disk) (path : Text) : Bool := (d.node? path).any Node.isFile

/-- Whether there is an entry at a path, if only a link that leads nowhere. -/
def hasEntry (d : Disk) (path : Text) : Bool := (d.find .entry path).isOk

/-- Whether the place that a path leads to is known, and then which it is. -/
def identity? (d : Disk) (path : Text) : Option Location := (d.locate path).toOption

/-- The absolute form of a path, seen from the working directory. -/
def absolute (d : Disk) (path : Text) : Text := Path.absolute d.workingPath path

/-! ## Reading -/

def entries (d : Disk) (path : Text) : Except Fault (List (Text × Node)) := do
  let location ← d.locate path
  match d.root.get? location with
  | some (.directory entries) =>
    if location ∈ d.unreadable then .error .denied else .ok entries
  | _ => .error .notDirectory

/-- Whether an entry of the directory at a path counts as a directory, when links do or do not
count as what they lead to. -/
def entryIsDirectory (d : Disk) (directory : Text) (followLinks : Bool) : Text × Node → Bool
  | (_, .directory _) => true
  | (name, .link _) => followLinks && d.isDirectory (Path.join directory name)
  | _ => false

def read (d : Disk) (path : Text) : Except Fault (List UInt8) := do
  let location ← d.locate path
  match d.root.get? location with
  | some (.file content) => if location ∈ d.unreadable then .error .denied else .ok content
  | some (.directory _) => .error .isDirectory
  | _ => .ok []

/-! ## Writing -/

/-- Opens the file at a path for writing, without its old content. The file is made if its
directory exists. -/
def openFile (d : Disk) (path : Text) : Except Fault (Location × Disk) := do
  let location ← d.find .place path
  match d.root.get? location with
  | some (.directory _) => .error .isDirectory
  | some (.device _) => .ok (location, d)
  | _ => .ok (location, { d with root := d.root.put location (.file []) })

/-- Writes bytes to the end of the file at a place. -/
def append (d : Disk) (location : Location) (bytes : List UInt8) : Except Fault Disk :=
  match d.root.get? location with
  | some (.file content) => .ok { d with root := d.root.put location (.file (content ++ bytes)) }
  | some (.device .full) => if bytes = [] then .ok d else .error .noSpace
  | _ => .ok d

end Disk

end TreeSieve
