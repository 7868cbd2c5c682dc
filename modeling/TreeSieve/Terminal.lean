import TreeSieve.Event
import TreeSieve.Writer

/-!
# The surroundings of the program

The file system, the two output streams and the signals that have been received. Standard output
takes bytes. Standard error takes text, in which a byte that is part of no character is shown by
number.
-/

namespace TreeSieve

/-- The signals received so far. -/
structure Signals where
  interrupt : Bool := false
  brokenPipe : Bool := false
  deriving DecidableEq

def Signals.any (s : Signals) : Bool := s.interrupt || s.brokenPipe

/-- The surroundings of the program. -/
structure Terminal where
  disk : Disk
  signals : Signals := {}
  /-- Whether standard output is a pipe that nobody reads. -/
  readerGone : Bool := false
  /-- What standard output has taken. -/
  output : List UInt8 := []
  /-- What standard error has taken. -/
  messages : List UInt8 := []

inductive Target where
  | standardOutput
  | file (location : Location)
  deriving DecidableEq

/-- A symbol as standard error shows it. -/
def Sym.visible : Sym → Text
  | .char c => [.char c]
  | .raw b => Text.numberEscape (.raw b)

namespace Terminal

def say (t : Terminal) (line : Text) : Terminal :=
  { t with messages := t.messages ++ Utf8.encode (line.flatMap Sym.visible ++ [.lineFeed]) }

/-- Writes a note to the log on standard error. -/
def log (t : Terminal) (n : Note) : Terminal :=
  t.say ("DEBUG: " ++ n.origin ++ ": " ++ n.message)

/-- Hands bytes to a target. A pipe that nobody reads answers with a signal and a fault. -/
def put (t : Terminal) (target : Target) (bytes : List UInt8) : Terminal × Except Fault Nat :=
  match target with
  | .standardOutput =>
    if t.readerGone then
      ({ t with signals := { t.signals with brokenPipe := true } }, .error .brokenPipe)
    else ({ t with output := t.output ++ bytes }, .ok bytes.length)
  | .file location =>
    match t.disk.append location bytes with
    | .ok disk => ({ t with disk }, .ok bytes.length)
    | .error fault => (t, .error fault)

/-- A target as a sink. -/
def sink (target : Target) : Sink Terminal where
  put t bytes := t.put target bytes

end Terminal

end TreeSieve
