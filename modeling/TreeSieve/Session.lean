import TreeSieve.CommandLine
import TreeSieve.Terminal
import TreeSieve.Walk

/-!
# A run of the program

The program walks the roots of its command line and writes every result as a record to standard
output or to a file. Reported errors go to standard error at once, and a run with errors has the
exit status one. A run that is interrupted, or whose reader goes away, stops quietly with a status
that tells the signal.
-/

namespace TreeSieve.Session

open CommandLine

inductive Failure where
  | conflict (c : Conflict)
  | walk (e : WalkError)
  | write (e : WriteError)
  | system (fault : Fault) (path? : Option Text)
  /-- An option of the given kind was left without a value. -/
  | noFailureMode
  | noDepth
  | noPattern
  | noPath
  deriving DecidableEq

def Failure.message : Failure → Text
  | .conflict c => c.message
  | .walk e => e.message
  | .write e => e.message
  | .system fault path? => fault.message path?
  | .noFailureMode => "unhashable type: 'list'"
  | .noDepth => "'<' not supported between instances of 'list' and 'int'"
  | .noPattern => "expected string or bytes-like object, got 'list'"
  | .noPath => "expected str, bytes or os.PathLike object, not list"

/-- The end of a run: the exit status, and the text that waits to be written to standard output. -/
structure Exit where
  status : Nat
  held : Text := []
  deriving DecidableEq

/-! ## The walk -/

/-- The state of a run during the walk. -/
structure Running where
  terminal : Terminal
  hadErrors : Bool := false
  failure : Option Failure := none

/-- The walk as the command line has it. -/
structure Plan where
  options : Options
  roots : List RootArgument
  /-- What ends each record. -/
  terminator : Sym
  verbose : Bool
  /-- Whether an option for a pattern was left without a value. -/
  lacksPattern : Bool := false

/-- Whether a walk that notes something comes to the patterns next, and lacks one. The patterns are
not looked at for a file that is left out anyway. -/
def Plan.stumbles (p : Plan) (d : Disk) : Note → Bool
  | .walking root =>
    p.lacksPattern && (d.isDirectory root ||
      !p.options.skipsRuleFile (Path.lastName root) && p.options.selectsFile (Path.isHidden root))
  | _ => false

/-- What an event does to a run, and whether the walk goes on. -/
def Running.receive (p : Plan) (target : Target) (w : Writer) (r : Running) (e : Event) :
    Running × Bool :=
  match e with
  | .result result =>
    let t := r.terminal
    match w.write (Terminal.sink target) t.signals.any t (result.path ++ [p.terminator]) with
    | (terminal, .ok ()) => ({ r with terminal }, true)
    | (terminal, .error .brokenPipe) => ({ r with terminal }, false)
    | (terminal, .error e) => ({ r with terminal, failure := some (.write e) }, false)
  | .error e =>
    ({ r with terminal := r.terminal.say ("Error: " ++ e.message), hadErrors := true }, true)
  | .note n =>
    let r := if p.verbose then { r with terminal := r.terminal.log n } else r
    if p.stumbles r.terminal.disk n then ({ r with failure := some .noPattern }, false)
    else (r, true)
  | .raised e => ({ r with failure := some (.walk e) }, false)
  | .refused fault => ({ r with failure := some (.system fault none) }, false)

def Running.receiver (p : Plan) (target : Target) (w : Writer) : Receiver Running where
  disk r := r.terminal.disk
  receive := Running.receive p target w

/-- Walks the roots of a plan and writes the results. The result says whether all roots were walked
to the end. -/
def Plan.walk (p : Plan) (target : Target) (t : Terminal) : Running × Bool :=
  let w : Writer := { ownsFile := target != .standardOutput }
  Walk.many p.options (Running.receiver p target w) p.roots { terminal := t }

/-! ## The run -/

/-- The paths that can be walked, and whether one without a value comes after them. -/
def usable (paths : List (Value Text)) : List Text × Bool :=
  ((paths.takeWhile Option.isSome).filterMap id, paths.any Option.isNone)

/-- The plan of settings. -/
def planOf (s : Settings) : Except Failure Plan := do
  let some mode := s.failureMode | throw .noFailureMode
  if s.depth = some none then throw .noDepth
  return {
    options :=
      { ruleFileName := Options.ruleFileOf s.ruleFileName.join
        patterns := s.patterns.filterMap id
        includeRuleFiles := s.includeRuleFiles
        output := if s.directory then .directories else .files
        depth := s.depth.join
        hidden := s.hidden
        force := s.force
        ignored := s.ignored
        followLinks := s.followLinks
        onError := if mode = .fail then .raise else .report }
    roots := s.paths.map .pattern ++ (usable s.literalPaths).1.map .literal
    terminator := if s.null then .nul else .lineFeed
    verbose := 2 ≤ s.verbose }

/-- The plan with the patterns of settings, one of which can lack its value. -/
def Plan.lacking (p : Plan) (patterns : List (Value Text)) : Plan :=
  if none ∈ patterns then { p with lacksPattern := true } else p

/-- Opens the target of settings. -/
def openTarget (s : Settings) (t : Terminal) : Except Failure (Target × Terminal) :=
  match s.output.join with
  | none => .ok (.standardOutput, t)
  | some path =>
    match t.disk.openFile path with
    | .ok (location, disk) => .ok (.file location, { t with disk })
    | .error fault => .error (.system fault (some path))

def fail (t : Terminal) (failure : Failure) : Terminal × Exit :=
  (t.say ("Error: " ++ failure.message), { status := 1 })

/-- The exit status of a run that was not ended by a failure. -/
def statusOf (signals : Signals) (hadErrors : Bool) : Nat :=
  if signals.brokenPipe then 141
  else if signals.interrupt then 130
  else if hadErrors then 1
  else 0

/-- Runs the program with settings. -/
def runSettings (s : Settings) (t : Terminal) : Terminal × Exit :=
  let opened := do
    let s ← s.validate.mapError Failure.conflict
    let p ← planOf s
    let (target, t) ← openTarget s t
    return (p, target, t)
  match opened with
  | .error failure => fail t failure
  | .ok (p, target, t) =>
    let (r, finished) := (p.lacking s.patterns).walk target t
    match r.failure with
    | some failure => fail r.terminal failure
    | none =>
      if finished ∧ (usable s.literalPaths).2 then fail r.terminal .noPath
      else (r.terminal, { status := statusOf r.terminal.signals r.hadErrors })

/-- The name and version of the program. -/
def versionText : Text := "ignorewalk 1.0.0\n"

/-- A list of the options. -/
def helpText : Text :=
  let line (flag : Flag) : Text := "  " ++ Text.joinWith ", " flag.spellings ++ [Sym.lineFeed]
  "usage: ignorewalk [options] [PATH ...]\n" ++ Flag.all.flatMap line

/-- Runs the program with the words of a command line. -/
def run (args : List Text) (t : Terminal) : Terminal × Exit :=
  match parse args with
  | .ok s => runSettings s t
  | .error .help => (t, { status := 0, held := helpText })
  | .error .version => (t, { status := 0, held := versionText })
  | .error (.usage e) => (t.say ("ignorewalk: error: " ++ e.message), { status := 2 })

/-- What standard output has taken when the program is gone. What waits is dropped after a signal,
and so is a text written at the very end. -/
def finalOutput (t : Terminal) (e : Exit) (tail : Text) : List UInt8 :=
  if t.signals.any ∨ t.readerGone then t.output else t.output ++ Utf8.encode (e.held ++ tail)

end TreeSieve.Session
