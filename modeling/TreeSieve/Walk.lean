import TreeSieve.Traversal
import TreeSieve.Wildcard

/-!
# Walks

A walk goes over one or more roots and hands its events to a receiver, one at a time. The receiver
can end the walk after any event, and nothing beyond that event is done. It also says how the file
system is at each moment, since what is done with the events may change it.

`Walker` is the plain use of this: the file system stays as it is, the events are collected, and the
walk ends when the wanted number of results is there.
-/

namespace TreeSieve

/-- What takes the events of a walk. -/
structure Receiver (σ : Type) where
  /-- The file system as it is in a state. -/
  disk : σ → Disk
  /-- The state after an event, and whether the walk goes on. -/
  receive : σ → Event → σ × Bool

namespace Receiver

variable {σ : Type}

/-- Hands over events until the receiver ends the walk or an event is the last one of a walk. The
result says whether the walk goes on. -/
def feed (r : Receiver σ) : σ → List Event → σ × Bool
  | s, [] => (s, true)
  | s, e :: rest =>
    match r.receive s e with
    | (s, true) => if e.isFinal then (s, false) else r.feed s rest
    | (s, false) => (s, false)

/-- The receiver that is not shown a result with a path that came before. -/
def distinct (r : Receiver σ) : Receiver (σ × List Text) where
  disk := fun (s, _) => r.disk s
  receive := fun (s, seen) e =>
    match e with
    | .result result =>
      if result.path ∈ seen then ((s, seen), true)
      else
        let (s, goesOn) := r.receive s e
        ((s, result.path :: seen), goesOn)
    | _ =>
      let (s, goesOn) := r.receive s e
      ((s, seen), goesOn)

end Receiver

/-! ## Roots -/

/-- A root as it is asked for. -/
inductive RootArgument where
  /-- A path as it is. -/
  | given (path : Text)
  /-- A path that may have wildcards. -/
  | pattern (text : Text)
  /-- A path whose wildcards have no meaning. -/
  | literal (text : Text)
  deriving DecidableEq

namespace RootArgument

/-- The roots that an argument stands for, with a note if there is something to note. The matches of
wildcards come in the order of code points and in printed form. A path without wildcards stands for
itself, and so does one without matches. -/
def resolve (d : Disk) : RootArgument → Except Fault (List Text × List Event)
  | given path => return ([path], [])
  | literal text => return ([Path.plain text], [])
  | pattern text => do
    if Wildcard.isIn text then
      match ← Wildcard.expand d text with
      | [] => return ([Path.plain text], [.note (.unmatched text)])
      | found => return ((Text.sort found).map Path.plain, [])
    else return ([Path.plain text], [])

/-- The roots that an argument stands for. -/
def roots (d : Disk) (argument : RootArgument) : Except Fault (List Text) :=
  (argument.resolve d).map (·.1)

end RootArgument

/-- The roots that path arguments stand for: first those with wildcards, then the literal ones. -/
def resolvePaths (d : Disk) (patterns literals : List Text) : Except Fault (List Text) := do
  let found ← (patterns.map RootArgument.pattern ++ literals.map RootArgument.literal).mapM
    (RootArgument.roots d)
  return found.flatten

/-! ## Walking -/

namespace Walk

variable {σ : Type}

/-- The events of a root that is not a directory. It is judged by the patterns alone, as if they
were declared in the directory that holds it. -/
def singleFile (o : Options) (d : Disk) (path : Text) : List Event :=
  if o.skipsRuleFile (Path.lastName path) || !o.selectsFile (Path.isHidden path) then []
  else
    let absolute := d.absolute path
    let rules := RuleStack.declared (Path.parent absolute) o.patterns
    if isExcluded (RuleStack.pushAll {} rules).rules absolute false != o.ignored then []
    else
      match o.output with
      | .files => [.result ⟨Path.plain path, false⟩]
      | .directories => [.result ⟨Path.plain (Path.parent path), true⟩]

/-- Steps through a traversal until its queue is empty. There is no traversal left if the receiver
ended the walk. -/
def run (o : Options) (r : Receiver σ) : (steps : Nat) → Traversal → σ → σ × Option Traversal
  | 0, t, s => (s, some t)
  | steps + 1, t, s =>
    if t.queue.isEmpty then (s, some t)
    else
      let (events, t) := t.step o (r.disk s)
      match r.feed s events with
      | (s, true) => run o r steps t s
      | (s, false) => (s, none)

/-- Walks the directory at a path. -/
def tree (o : Options) (r : Receiver σ) (path : Text) (s : σ) : σ × Bool :=
  let d := r.disk s
  match run o r (Traversal.enoughSteps d.root.size) (Traversal.start o d path) s with
  | (s, some t) => r.feed s t.finish
  | (s, none) => (s, false)

def root (o : Options) (r : Receiver σ) (path : Text) (s : σ) : σ × Bool :=
  let d := r.disk s
  if d.has path then
    match r.feed s [.note (.walking path)] with
    | (s, true) =>
      if d.isDirectory path then tree o r path s else r.feed s (singleFile o d path)
    | (s, false) => (s, false)
  else r.feed s (o.onFailure (.rootMissing path))

def roots (o : Options) (r : Receiver σ) : List Text → σ → σ × Bool
  | [], s => (s, true)
  | path :: rest, s =>
    match root o r path s with
    | (s, true) => roots o r rest s
    | (s, false) => (s, false)

/-- Walks the roots of arguments one after another. An argument is expanded when its turn comes. -/
def arguments (o : Options) (r : Receiver σ) : List RootArgument → σ → σ × Bool
  | [], s => (s, true)
  | argument :: rest, s =>
    match argument.resolve (r.disk s) with
    | .error fault => r.feed s [.refused fault]
    | .ok (paths, notes) =>
      match r.feed s notes with
      | (s, true) =>
        match roots o r paths s with
        | (s, true) => arguments o r rest s
        | (s, false) => (s, false)
      | (s, false) => (s, false)

/-- Walks the roots of arguments one after another. A directory that was reported for one root is
not reported again for another. -/
def many (o : Options) (r : Receiver σ) (args : List RootArgument) (s : σ) : σ × Bool :=
  match o.output with
  | .files => arguments o r args s
  | .directories =>
    let ((s, _), goesOn) := arguments o r.distinct args (s, [])
    (s, goesOn)

end Walk

/-! ## Collecting the events -/

/-- The events of a walk so far. -/
structure Collected where
  disk : Disk
  events : List Event := []
  /-- How many more results are wanted, if there is a limit. -/
  wanted : Option Nat := none

namespace Collected

/-- Adds an event. Notes are for a log and are left out. The walk ends with the last result that is
wanted. -/
def add (c : Collected) (e : Event) : Collected × Bool :=
  match e with
  | .note _ => (c, true)
  | .result _ =>
    let wanted := c.wanted.map (· - 1)
    ({ c with events := c.events ++ [e], wanted }, wanted != some 0)
  | _ => ({ c with events := c.events ++ [e] }, true)

/-- The receiver that collects events. -/
def receiver : Receiver Collected where
  disk := Collected.disk
  receive := add

end Collected

/-- A walker has options and remembers the errors that it has reported. -/
structure Walker where
  options : Options
  errors : List WalkError := []
  deriving DecidableEq

namespace Walker

/-- The events of a walk, of which at most a number of results is taken. -/
def collect (d : Disk) (limit : Option Nat)
    (walk : Collected → Collected × Bool) : List Event :=
  if limit = some 0 then [] else (walk { disk := d, wanted := limit }).1.events

/-- The walker after events. -/
def remember (w : Walker) (events : List Event) : List Event × Walker :=
  (events, { w with errors := w.errors ++ events.filterMap Event.error? })

def walk (w : Walker) (d : Disk) (root : Text) (limit : Option Nat) : List Event × Walker :=
  w.remember (collect d limit (Walk.root w.options Collected.receiver root))

def walkMany (w : Walker) (d : Disk) (roots : List Text) (limit : Option Nat) :
    List Event × Walker :=
  w.remember (collect d limit (Walk.many w.options Collected.receiver (roots.map .given)))

end Walker

end TreeSieve
