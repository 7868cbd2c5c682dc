import TreeSieve.CommandLine.Word
import TreeSieve.Path

/-!
# The command line

The words of a command line are read from left to right into settings. The first run of operands
between options holds the paths to walk, and operands after that are left over. Words left over are
an error, but only when everything else has been read, so an option that ends the program wins.

What is attached to an option in one word is taken apart by the rules for arguments up to release
3.11.7. An option that takes a value can be left without one by them (`-p=--`), which it cannot be
since release 3.11.8.
-/

namespace TreeSieve.CommandLine

/-- The value of an option, unless it is `--` in the same word as the option: that counts as a
separator and leaves the option without a value. -/
abbrev Value (α : Type) := Option α

/-- What the program does about errors, as the command line has it. -/
inductive FailureMode where
  | report
  | fail
  deriving DecidableEq

namespace FailureMode

def name : FailureMode → Text
  | report => "report"
  | fail => "fail"

/-- The failure modes in the order in which they are listed. -/
def all : List FailureMode := [report, fail]

end FailureMode

structure Settings where
  paths : List Text := []
  literalPaths : List (Value Text) := []
  ruleFileName : Option (Value Text) := none
  patterns : List (Value Text) := []
  includeRuleFiles : Bool := false
  directory : Bool := false
  depth : Option (Value Nat) := none
  hidden : Bool := false
  force : Bool := false
  ignored : Bool := false
  followLinks : Bool := false
  output : Option (Value Text) := none
  null : Bool := false
  failureMode : Value FailureMode := some .report
  verbose : Nat := 0
  deriving DecidableEq

/-- Why the program ends before it has settings. -/
inductive Stop where
  | help
  | version
  | usage (error : UsageError)
  deriving DecidableEq

/-- Whether the paths to walk have been read. -/
inductive Stage where
  | before
  | within
  | after
  deriving DecidableEq

structure Progress where
  settings : Settings := {}
  stage : Stage := .before
  leftOver : List Text := []
  deriving DecidableEq

/-! ## Options -/

def Settings.turnOn (s : Settings) : Flag → Except Stop Settings
  | .help => .error .help
  | .version => .error .version
  | .includeRuleFiles => .ok { s with includeRuleFiles := true }
  | .directory => .ok { s with directory := true }
  | .hidden => .ok { s with hidden := true }
  | .force => .ok { s with force := true }
  | .ignored => .ok { s with ignored := true }
  | .followLinks => .ok { s with followLinks := true }
  | .null => .ok { s with null := true }
  | .verbose => .ok { s with verbose := s.verbose + 1 }
  | _ => .ok s

def Settings.assign (s : Settings) (flag : Flag) (value : Text) : Except Stop Settings :=
  let kept : Value Text := if value = Word.separatorText then none else some value
  match flag with
  | .literalPath => .ok { s with literalPaths := s.literalPaths ++ [kept] }
  | .ruleFileName => .ok { s with ruleFileName := some kept }
  | .rulePattern => .ok { s with patterns := s.patterns ++ [kept] }
  | .output => .ok { s with output := some (kept.map Path.plain) }
  | .depth =>
    match kept.mapM Numeral.count with
    | .ok n => .ok { s with depth := some n }
    | .error e => .error (.usage (.notCount flag e))
  | .errorAction =>
    match kept with
    | none => .ok { s with failureMode := none }
    | some value =>
      match FailureMode.all.find? (·.name = value) with
      | some mode => .ok { s with failureMode := some mode }
      | none => .error (.usage (.notChoice flag value (FailureMode.all.map FailureMode.name)))
  | _ => .ok s

/-- The settings with an option, which has a value exactly when it takes one. -/
def Settings.apply (s : Settings) : Flag × Option Text → Except Stop Settings
  | (flag, none) => s.turnOn flag
  | (flag, some value) => s.assign flag value

/-- The last one of the options of a word if it takes the next word as its value. -/
def wanting (options : List (Flag × Option Text)) : Option Flag :=
  match options.getLast? with
  | some (flag, none) => if flag.takesValue then some flag else none
  | _ => none

/-! ## Reading -/

namespace Progress

def operand (p : Progress) (text : Text) : Progress :=
  match p.stage with
  | .after => { p with leftOver := p.leftOver ++ [text] }
  | _ =>
    { p with
      stage := .within
      settings := { p.settings with paths := p.settings.paths ++ [text] } }

def separator (p : Progress) : Progress :=
  match p.stage with
  | .after => { p with leftOver := p.leftOver ++ [Word.separatorText] }
  | _ => { p with stage := .within }

/-- An option ends a run of operands. -/
def endOperands (p : Progress) : Progress :=
  { p with stage := if p.stage = .within then .after else p.stage }

def unknown (p : Progress) (text : Text) : Progress :=
  { p.endOperands with leftOver := p.leftOver ++ [text] }

def options (p : Progress) (options : List (Flag × Option Text)) : Except Stop Progress := do
  let settings ← options.foldlM Settings.apply p.settings
  return { p with settings }

end Progress

def readWords (p : Progress) : List Word → Except Stop Progress
  | [] => .ok p
  | .operand text :: rest => readWords (p.operand text) rest
  | .separator :: rest => readWords p.separator rest
  | .unknown text :: rest => readWords (p.unknown text) rest
  | .flagged flag name attached :: rest =>
    match Word.options flag name attached with
    | .error e => .error (.usage e)
    | .ok options =>
      match wanting options, rest with
      | none, rest => do readWords (← p.endOperands.options options) rest
      | some last, .operand value :: rest => do
        readWords (← p.endOperands.options (options.dropLast ++ [(last, some value)])) rest
      | some last, _ => .error (.usage (.missingValue last))

/-- The settings that the words of a command line give. -/
def parse (args : List Text) : Except Stop Settings := do
  let words ← (Word.ofTexts args).mapError .usage
  let p ← readWords {} words
  if p.leftOver = [] then return p.settings
  else throw (.usage (.unrecognized p.leftOver))

/-! ## Checking -/

/-- Two settings exclude each other. -/
inductive Conflict where
  | ruleFilesOfDirectories
  deriving DecidableEq

def Conflict.message : Conflict → Text
  | .ruleFilesOfDirectories =>
    Flag.includeRuleFiles.display ++ " cannot be combined with " ++ Flag.directory.display

/-- The settings as the program uses them. Without any path, the working directory is walked. -/
def Settings.validate (s : Settings) : Except Conflict Settings :=
  if s.includeRuleFiles ∧ s.directory then .error .ruleFilesOfDirectories
  else if s.paths = [] ∧ s.literalPaths = [] then .ok { s with paths := [Path.here] }
  else .ok s

end TreeSieve.CommandLine
