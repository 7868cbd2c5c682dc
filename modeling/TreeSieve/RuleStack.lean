import TreeSieve.Rule
import TreeSieve.Text.Utf8

/-!
# The stack of rules in scope

While a directory is listed, the rules declared in it and in the directories above it are in scope.
They are kept newest first, each with a priority. Priorities only grow, so of two rules on the
stack the one with the larger priority was declared later and wins. Every directory records how
many rules it pushed, and leaving it pops as many.

`evaluate` finds the rule that decides about a path. It looks only at rules above a floor, which is
the priority of the rule that excluded the directory.
-/

namespace TreeSieve

structure RankedRule where
  priority : Nat
  rule : Rule
  deriving DecidableEq

/-- What the rules say about a path. -/
inductive Verdict where
  /-- No rule matches. -/
  | keep
  /-- The deciding rule is negated. -/
  | allow
  /-- The deciding rule excludes the path. -/
  | drop
  deriving DecidableEq

namespace RankedRule

/-- Whether a rule applies to a path, which is that of a directory or not. -/
def applies (r : RankedRule) (path : Text) (isDirectory : Bool) : Bool :=
  (!r.rule.directoryOnly || isDirectory) && r.rule.accepts path

/-- The verdict of a rule on the paths that it applies to. -/
def verdict (r : RankedRule) : Verdict := if r.rule.negated then .allow else .drop

end RankedRule

/-- The verdict of the first applicable rule above a floor, with its priority. The rules are given
newest first. -/
def evaluate (rules : List RankedRule) (path : Text) (isDirectory : Bool) (floor : Int) :
    Verdict × Nat :=
  match rules with
  | [] => (.keep, 0)
  | r :: rest =>
    if r.priority ≤ floor then (.keep, 0)
    else if r.applies path isDirectory then (r.verdict, r.priority)
    else evaluate rest path isDirectory floor

/-- Whether the rules exclude a path on their own. -/
def isExcluded (rules : List RankedRule) (path : Text) (isDirectory : Bool) : Bool :=
  (evaluate rules path isDirectory 0).1 == .drop

/-- Whether a negated rule has a priority above the given one. The rules are given newest first. -/
def hasNegatedAbove (rules : List RankedRule) (priority : Int) : Bool :=
  match rules with
  | [] => false
  | r :: rest =>
    if r.priority ≤ priority then false
    else r.rule.negated || hasNegatedAbove rest priority

/-- The lines of a text. A line feed, a carriage return or both together end a line, and nothing
else does. -/
def textLines (t : Text) : List Text :=
  match Text.pieces .lineFeed (unifyBreaks t) with
  | [] => []
  | p :: ps => if (p :: ps).getLast? = some [] then (p :: ps).dropLast else p :: ps
where
  /-- A text in which every line break is a line feed. -/
  unifyBreaks : Text → Text
    | [] => []
    | .char '\r' :: .char '\n' :: rest => .lineFeed :: unifyBreaks rest
    | s :: rest => (if s = .char '\r' then .lineFeed else s) :: unifyBreaks rest

structure RuleStack where
  rules : List RankedRule := []
  /-- How many rules each directory pushed. -/
  counts : List (Text × Int) := []
  lastPriority : Nat := 0
  deriving DecidableEq

/-- A directory's record asks for more rules than there are. -/
inductive RuleStack.Error where
  | underflow
  deriving DecidableEq

def RuleStack.Error.message : RuleStack.Error → Text
  | .underflow => "pop from an empty deque"

namespace RuleStack

/-- A rule pushed with the next priority. -/
def push (s : RuleStack) (rule : Rule) : RuleStack :=
  { s with
    rules := ⟨s.lastPriority + 1, rule⟩ :: s.rules
    lastPriority := s.lastPriority + 1 }

/-- The rules that lines declare in a directory. -/
def declared (directory : Text) (lines : List Text) : List Rule :=
  lines.filterMap (Rule.ofLine? directory)

/-- Rules pushed in order, so that the last one gets the highest priority. -/
def pushAll (s : RuleStack) (rules : List Rule) : RuleStack := rules.foldl push s

/-- The lines of a rule file. -/
def fileLines (content : List UInt8) : List Text := textLines (Utf8.decodeLossy content)

/-- The number of rules recorded for a directory. An earlier record is replaced. -/
def record (s : RuleStack) (directory : Text) (count : Int) : RuleStack :=
  { s with counts := (directory, count) :: s.counts.filter (·.1 ≠ directory) }

/-- The number recorded for a directory, which is zero for an unknown one. -/
def recorded (s : RuleStack) (directory : Text) : Int := (s.counts.lookup directory).getD 0

/-- The stack after a directory is left: its record is gone, and its rules are popped as far as
there are any. -/
def leave (s : RuleStack) (directory : Text) : RuleStack :=
  { s with
    rules := s.rules.drop (s.recorded directory).toNat
    counts := s.counts.filter (·.1 ≠ directory) }

/-- The number of rules popped when a directory is left. It is an error to pop more than there
are. -/
def popped (s : RuleStack) (directory : Text) : Except Error Int :=
  if s.recorded directory ≤ s.rules.length then .ok (s.recorded directory) else .error .underflow

end RuleStack

end TreeSieve
