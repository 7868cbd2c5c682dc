import TreeSieve.Ancestors
import TreeSieve.Event
import TreeSieve.Listing
import TreeSieve.Options
import TreeSieve.RuleStack

/-!
# The traversal of one tree

A traversal works on a queue of frames, one for each directory that waits to be entered or has been
entered and not left. Entering a directory puts the frames of its subdirectories in front of its
own, so its frame comes up again when all of them have been left, and then the directory is left
too. All directories share one stack of rules: entering pushes a directory's rules and leaving pops
them.

A subdirectory that the rules exclude is entered only if the excluded files are wanted, or if a
negated rule of higher priority could bring something below it back.
-/

namespace TreeSieve

/-- A directory in the queue of a traversal. -/
structure Frame where
  /-- The path on which the paths of the children are built. -/
  path : Text
  /-- The absolute path, which is listed and matched. -/
  absolute : Text
  /-- The key of the directory above, if that belongs to the traversal. -/
  above : Option Text
  /-- The priority of the rule that excluded the directory or one above it, or zero. -/
  excludedBy : Nat
  /-- Where the directory is, if links are followed. -/
  identity : Option Location
  /-- How many rules were pushed before the directory was entered. -/
  seeded : Nat
  entered : Bool
  deriving DecidableEq

/-- The key of a directory: its absolute path without slashes at its end. -/
def Frame.key (f : Frame) : Text := Path.trimmed f.absolute

structure Traversal where
  queue : List Frame
  rules : RuleStack := {}
  ancestors : Ancestors := {}
  /-- Where the entered directories are, if links are followed. -/
  active : List Location := []
  depth : Nat := 0
  deriving DecidableEq

/-- The priority of the rule that excludes a path, or zero. The floor is the exclusion of the
directory above, which stands unless a rule of higher priority decides. -/
def judge (rules : List RankedRule) (path : Text) (isDirectory : Bool) (floor : Nat) : Nat :=
  match evaluate rules path isDirectory floor with
  | (.drop, priority) => priority
  | (.allow, _) => 0
  | (.keep, _) => floor

/-- What happens when an error occurs. -/
def Options.onFailure (o : Options) (error : WalkError) : List Event :=
  match o.onError with
  | .report => [.note (.reported error), .error error]
  | .raise => [.raised error]

namespace Traversal

/-! ## Entering a directory -/

/-- What entering a directory finds: the rules in scope with the notes about them, and the children
or an error. -/
structure Scope where
  rules : RuleStack
  notes : List Event
  children : Except WalkError (List Entry)

/-- The rules of the rule file of a directory, with its path, if there is such a file. An excluded
directory's file is not read. -/
def ruleFile (o : Options) (d : Disk) (f : Frame) : Except WalkError (Option (List Rule × Text)) :=
  match o.ruleFileName with
  | none => .ok none
  | some name =>
    if f.excludedBy ≠ 0 then .ok none
    else
      let file := Path.join f.absolute name
      if d.isFile file then
        match d.read file with
        | .ok content =>
          .ok (some (RuleStack.declared f.absolute (RuleStack.fileLines content), file))
        | .error fault => .error (.unreadable (Path.join f.path name) (.ofFault fault))
      else .ok none

/-- Pushes the rules of a directory and lists its children. The number of rules is recorded whether
or not that succeeds. -/
def openScope (o : Options) (d : Disk) (rules : RuleStack) (f : Frame) : Scope :=
  match ruleFile o d f with
  | .error e => ⟨rules.record f.key f.seeded, [], .error e⟩
  | .ok found =>
    let declared := (found.map (·.1)).getD []
    { rules := (rules.pushAll declared).record f.key (f.seeded + declared.length : Nat)
      notes := found.toList.map fun (rs, file) => .note (.loaded rs.length file)
      children :=
        match d.scan f.absolute f.path o.followLinks with
        | .ok children => .ok children
        | .error fault => .error (.unreadable f.path (.ofFault fault)) }

/-- The frame of a subdirectory if it is to be entered, with notes if it is not. -/
def schedule (o : Options) (d : Disk) (t : Traversal) (f : Frame) (e : Entry) (excludedBy : Nat) :
    Option Frame × List Event :=
  if excludedBy ≠ 0 ∧ !(o.ignored || hasNegatedAbove t.rules.rules excludedBy) then (none, [])
  else
    match o.depth.filter (· < t.depth) with
    | some limit => (none, [.note (.tooDeep e.path limit)])
    | none =>
      let absolute := Path.join f.absolute e.name
      let identity := if o.followLinks then d.identity? absolute else none
      if identity.any t.active.contains then (none, [.note (.loop e.path)])
      else
        (some
          { path := e.path, absolute, above := some f.key, excludedBy, identity
            seeded := 0, entered := false },
        [])

structure Harvest where
  events : List Event := []
  frames : List Frame := []
  ancestors : Ancestors
  deriving DecidableEq

/-- The exclusion of a child of a directory. Nothing can change below an excluded directory unless a
negated rule has a higher priority. -/
def exclusion (t : Traversal) (f : Frame) (e : Entry) : Nat :=
  if f.excludedBy = 0 ∨ hasNegatedAbove t.rules.rules f.excludedBy then
    let path := f.key ++ .slash :: e.name
    judge t.rules.rules (if e.isDirectory then path ++ [.slash] else path) e.isDirectory
      f.excludedBy
  else f.excludedBy

def visit (o : Options) (d : Disk) (t : Traversal) (f : Frame) (h : Harvest) (e : Entry) :
    Harvest :=
  if e.isDirectory then
    if o.entersDirectory e.isHidden then
      let (frame, notes) := schedule o d t f e (exclusion t f e)
      { h with events := h.events ++ notes, frames := h.frames ++ frame.toList }
    else h
  else if o.skipsRuleFile e.name || !o.selectsFile e.isHidden then h
  else
    match o.output with
    | .files =>
      if o.reports (exclusion t f e) then
        { h with events := h.events ++ [.result ⟨Path.plain e.path, false⟩] }
      else h
    | .directories =>
      if h.ancestors.isLive f.key then h
      else if o.reports (exclusion t f e) then
        { h with ancestors := h.ancestors.markLive f.key }
      else h

def enter (o : Options) (d : Disk) (t : Traversal) (f : Frame) (rest : List Frame) :
    List Event × Traversal :=
  let scope := openScope o d t.rules f
  let t : Traversal :=
    { queue := { f with entered := true } :: rest
      rules := scope.rules
      ancestors := t.ancestors
      active := f.identity.toList ++ t.active
      depth := t.depth + 1 }
  match scope.children with
  | .error e => (scope.notes ++ o.onFailure e, t)
  | .ok children =>
    let h := children.foldl (visit o d t f) { ancestors := t.ancestors }
    (scope.notes ++ h.events,
      { t with queue := h.frames ++ t.queue, ancestors := h.ancestors })

/-! ## Leaving a directory -/

def leave (o : Options) (t : Traversal) (f : Frame) (rest : List Frame) : Traversal :=
  { queue := rest
    rules := t.rules.leave f.key
    ancestors :=
      match o.output with
      | .files => t.ancestors
      | .directories => t.ancestors.leave f.key f.path f.above
    active := t.active.filter (f.identity ≠ some ·)
    depth := t.depth - 1 }

/-! ## The whole traversal -/

/-- One step of a traversal: the directory at the front of the queue is entered, or it is left if
it has been entered before. -/
def step (o : Options) (d : Disk) (t : Traversal) : List Event × Traversal :=
  match t.queue with
  | [] => ([], t)
  | f :: rest => if f.entered then ([], leave o t f rest) else enter o d t f rest

/-- The traversal of the directory at a path, before its first step. -/
def start (o : Options) (d : Disk) (root : Text) : Traversal :=
  let absolute := d.absolute root
  let seeds := RuleStack.declared absolute o.patterns
  { queue :=
      [{ path := root, absolute, above := none, excludedBy := 0
         identity := if o.followLinks then d.identity? absolute else none
         seeded := seeds.length, entered := false }]
    rules := RuleStack.pushAll {} seeds }

/-- The directories that are reported at the end. -/
def finish (t : Traversal) : List Event :=
  (t.ancestors.drain none).1.map fun path => .result ⟨Path.plain path, true⟩

/-- A number of steps that is enough to get through a directory with so many levels in and below
it, in a file system of `size` nodes: it is entered and left, and has fewer children than there are
nodes. -/
def stepsWithin (size : Nat) : (levels : Nat) → Nat
  | 0 => 2
  | levels + 1 => (size + 1) * stepsWithin size levels

/-- A number of steps that is enough for every traversal of a file system with so many nodes. On
the way to a directory from the root no directory comes twice. -/
def enoughSteps (size : Nat) : Nat := stepsWithin size (size + 1)

end Traversal

end TreeSieve
