import TreeSieve.WalkError

/-!
# Events of a walk

What a walk does, seen from outside, is a list of events: results, reported errors and notes for a
log, in the order in which they happen. An error that ends the walk is its last event.
-/

namespace TreeSieve

inductive Note where
  /-- The walk of a root begins. -/
  | walking (root : Text)
  /-- Rules were read from a file. -/
  | loaded (count : Nat) (file : Text)
  /-- A directory is not entered because it lies too deep. -/
  | tooDeep (path : Text) (limit : Nat)
  /-- A directory is not entered because it is being walked already. -/
  | loop (path : Text)
  /-- An error is reported. -/
  | reported (error : WalkError)
  /-- No path matches a wildcard. -/
  | unmatched (wildcard : Text)
  deriving DecidableEq

namespace Note

def origin : Note → Text
  | .loaded _ _ => "ignorewalk.rules.rule_stack"
  | .unmatched _ => "ignorewalk.walker.path_resolver"
  | _ => "ignorewalk.walker.filtered_walker"

def message : Note → Text
  | .walking root => "Walking " ++ root
  | .loaded count file => "Loaded " ++ Text.ofNat count ++ " rule(s) from " ++ file
  | .tooDeep path limit =>
    "Not descending into " ++ path ++ ": depth limit " ++ Text.ofNat limit ++ " reached"
  | .loop path => "Not descending into " ++ path ++ ": symlink loop"
  | .reported error => "Reported error: " ++ error.message
  | .unmatched wildcard => "Wildcard " ++ wildcard ++ " matched nothing"

end Note

structure Result where
  /-- The path, in printed form. -/
  path : Text
  isDirectory : Bool
  deriving DecidableEq

inductive Event where
  | result (r : Result)
  | error (e : WalkError)
  | note (n : Note)
  /-- The walk ends with an error. -/
  | raised (e : WalkError)
  /-- The walk ends because a path cannot be given to the system. -/
  | refused (fault : Fault)
  deriving DecidableEq

namespace Event

def result? : Event → Option Result
  | .result r => some r
  | _ => none

def error? : Event → Option WalkError
  | .error e => some e
  | _ => none

def isFinal : Event → Bool
  | .raised _ => true
  | .refused _ => true
  | _ => false

end Event

end TreeSieve
