import TreeSieve.Disk

/-!
# Writing records

A writer sends texts to a sink as bytes. A sink may take only a part of what it is given, and then
the writer tries again with the rest. A writer that is closed refuses to write, and so does one
after an interruption, which counts as a broken pipe.
-/

namespace TreeSieve

/-- What takes bytes. An attempt to hand over bytes gives the number of bytes taken, which is at
least one if there are any, or fails. -/
structure Sink (σ : Type) where
  put : σ → List UInt8 → σ × Except Fault Nat

namespace Sink

variable {σ : Type}

/-- Hands over bytes, in at most a number of attempts. -/
def deliver (k : Sink σ) : (attempts : Nat) → σ → List UInt8 → σ × Except Fault Unit
  | _, s, [] => (s, .ok ())
  | 0, s, _ :: _ => (s, .ok ())
  | attempts + 1, s, b :: bytes =>
    match k.put s (b :: bytes) with
    | (s, .ok taken) => k.deliver attempts s ((b :: bytes).drop taken)
    | (s, .error fault) => (s, .error fault)

/-- Hands over bytes until all of them are taken. Every attempt takes at least one. -/
def deliverAll (k : Sink σ) (s : σ) (bytes : List UInt8) : σ × Except Fault Unit :=
  k.deliver bytes.length s bytes

end Sink

/-- Why nothing or not everything is written. -/
inductive WriteError where
  | closed
  /-- Nobody reads any more, or the program was interrupted. -/
  | brokenPipe
  | failed (fault : Fault)
  deriving DecidableEq

def WriteError.message : WriteError → Text
  | .closed => "Cannot write to closed SafeWriter"
  | .brokenPipe => []
  | .failed fault => fault.message none

structure Writer where
  /-- Whether the writer opened a file, which it has to close. -/
  ownsFile : Bool
  closed : Bool := false
  deriving DecidableEq

namespace Writer

variable {σ : Type}

def write (w : Writer) (k : Sink σ) (interrupted : Bool) (s : σ) (data : Text) :
    σ × Except WriteError Unit :=
  if w.closed then (s, .error .closed)
  else if interrupted then (s, .error .brokenPipe)
  else
    match k.deliverAll s (Utf8.encode data) with
    | (s, .ok ()) => (s, .ok ())
    | (s, .error .brokenPipe) => (s, .error .brokenPipe)
    | (s, .error fault) => (s, .error (.failed fault))

/-- Closes a writer, when closing its file gives the fault, if any. A broken pipe does not matter
any more, but after another fault the writer stays open. -/
def close (w : Writer) (fault? : Option Fault) : Writer × Except Fault Unit :=
  if w.closed then (w, .ok ())
  else
    match if w.ownsFile then fault? else none with
    | none => ({ w with closed := true }, .ok ())
    | some .brokenPipe => ({ w with closed := true }, .ok ())
    | some fault => (w, .error fault)

/-- Closes a writer at the end of a block. A fault in closing does not replace an error of the
block. -/
def closeAfter {ε : Type} (w : Writer) (fault? : Option Fault) (block : Except ε Unit)
    (ofFault : Fault → ε) : Writer × Except ε Unit :=
  match block, w.close fault? with
  | .error e, (w, _) => (w, .error e)
  | .ok (), (w, .ok ()) => (w, .ok ())
  | .ok (), (w, .error fault) => (w, .error (ofFault fault))

end Writer

end TreeSieve
