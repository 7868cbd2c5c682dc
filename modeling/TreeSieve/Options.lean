import TreeSieve.Text.Quoted

/-!
# Options of a walk

What a walk reports and how it treats hidden entries, links, rule files and errors. The options
that are written as names or numbers are read here, and a wrong one is an error.
-/

namespace TreeSieve

inductive OutputMode where
  /-- Every file that survives. -/
  | files
  /-- Every directory that has such a file somewhere below it. -/
  | directories
  deriving DecidableEq

inductive ErrorAction where
  /-- The error is reported, and the walk goes on elsewhere. -/
  | report
  /-- The walk ends with the error. -/
  | raise
  deriving DecidableEq

/-- Why options are refused. -/
inductive OptionError where
  | unknownOutputMode (name : Text)
  | unknownErrorAction (name : Text)
  | negativeDepth (depth : Int)
  deriving DecidableEq

def OptionError.message : OptionError → Text
  | .unknownOutputMode name => name.quoted ++ " is not a valid OutputMode"
  | .unknownErrorAction name => name.quoted ++ " is not a valid ErrorAction"
  | .negativeDepth depth => "depth must be non-negative, got " ++ Text.ofInt depth

def OutputMode.ofName (name : Text) : Except OptionError OutputMode :=
  if name = ("files" : Text) then .ok .files
  else if name = ("directories" : Text) then .ok .directories
  else .error (.unknownOutputMode name)

def ErrorAction.ofName (name : Text) : Except OptionError ErrorAction :=
  if name = ("report" : Text) then .ok .report
  else if name = ("raise" : Text) then .ok .raise
  else .error (.unknownErrorAction name)

structure Options where
  /-- The name of the rule files. Without one, no rule file is read. -/
  ruleFileName : Option Text := none
  /-- Lines that act like the top of a rule file in every root. -/
  patterns : List Text := []
  /-- Whether rule files can be reported. -/
  includeRuleFiles : Bool := false
  output : OutputMode := .files
  /-- How many levels of subdirectories are entered. -/
  depth : Option Nat := none
  /-- Whether hidden files are reported instead of visible ones. -/
  hidden : Bool := false
  /-- Whether hidden and visible files are reported alike. -/
  force : Bool := false
  /-- Whether the files that the rules exclude are reported instead of the others. -/
  ignored : Bool := false
  /-- Whether links to directories are entered. -/
  followLinks : Bool := false
  onError : ErrorAction := .report
  deriving DecidableEq

namespace Options

/-- The name of the rule files. The empty name is none. -/
def ruleFileOf (name : Option Text) : Option Text := name.filter (· ≠ [])

/-- A limit on the depth, which cannot be negative. -/
def depthOf (depth : Option Int) : Except OptionError (Option Nat) :=
  match depth with
  | none => .ok none
  | some (.ofNat n) => .ok (some n)
  | some (.negSucc n) => .error (.negativeDepth (.negSucc n))

/-- Whether files are reported, as far as being hidden matters. -/
def selectsFile (o : Options) (isHidden : Bool) : Bool := o.force || o.hidden == isHidden

/-- Whether directories are entered, as far as being hidden matters. -/
def entersDirectory (o : Options) (isHidden : Bool) : Bool := !isHidden || o.force || o.hidden

/-- Whether a file is left out because it is a rule file. -/
def skipsRuleFile (o : Options) (name : Text) : Bool :=
  o.ruleFileName == some name && !o.includeRuleFiles

/-- Whether a file is reported that was excluded by the rule with the given priority, where zero
stands for no rule. -/
def reports (o : Options) (excludedBy : Nat) : Bool := (excludedBy != 0) == o.ignored

end Options

end TreeSieve
