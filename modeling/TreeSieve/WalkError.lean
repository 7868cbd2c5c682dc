import TreeSieve.Fault

/-!
# Errors of a walk

A walk reports two kinds of errors: a root that does not exist, and a directory or rule file that
cannot be read. The wording names the path as it was given.
-/

namespace TreeSieve

/-- What the system said about a failure. -/
inductive Cause where
  /-- A numbered error, with its reason and perhaps the file concerned. -/
  | numbered (number : Int) (reason : Text) (file : Option Text)
  /-- A bare text. -/
  | plain (text : Text)
  deriving DecidableEq

namespace Cause

def text : Cause → Text
  | .numbered number reason file =>
    let base : Text := "[Errno " ++ Text.ofInt number ++ "] " ++ reason
    match file with
    | none => base
    | some file => base ++ ": " ++ file.quoted
  | .plain text => text

/-- The reason if the cause has one, else its whole text. -/
def summary : Cause → Text
  | .numbered number [] file => (numbered number [] file).text
  | .numbered _ reason _ => reason
  | .plain text => text

/-- The cause that a fault is. -/
def ofFault (fault : Fault) : Cause :=
  match fault.number? with
  | some n => .numbered n fault.reason none
  | none => .plain fault.reason

end Cause

/-- An error that a walk reports. -/
inductive WalkError where
  /-- The root does not exist. -/
  | rootMissing (path : Text)
  /-- A directory cannot be listed, or a rule file cannot be read. -/
  | unreadable (path : Text) (cause : Cause)
  deriving DecidableEq

namespace WalkError

def path : WalkError → Text
  | .rootMissing path => path
  | .unreadable path _ => path

def message : WalkError → Text
  | .rootMissing path => "Path not found: " ++ path
  | .unreadable path cause => "Cannot read " ++ path ++ ": " ++ cause.summary

end WalkError

end TreeSieve
