import TreeSieve.Text.Quoted

/-!
# Faults

Why the system refuses an operation on a path. A fault has the system's number and wording, except
for a path that holds a NUL, which never reaches the system.
-/

namespace TreeSieve

/-- The error numbers of the system that have a fault of their own. -/
def Fault.numbers : List Nat := [2, 5, 13, 20, 21, 28, 32, 36, 40]

/-- Why an operation on a path fails. -/
inductive Fault where
  | notFound
  | inputOutput
  | denied
  | notDirectory
  | isDirectory
  | noSpace
  | brokenPipe
  | nameTooLong
  | tooManyLinks
  /-- Any other error of the system, with its number and wording. -/
  | other (number : Nat) (wording : Text) (isOther : number ∉ Fault.numbers)
  | embeddedNul
  deriving DecidableEq

namespace Fault

def number? : Fault → Option Nat
  | .notFound => some 2
  | .inputOutput => some 5
  | .denied => some 13
  | .notDirectory => some 20
  | .isDirectory => some 21
  | .noSpace => some 28
  | .brokenPipe => some 32
  | .nameTooLong => some 36
  | .tooManyLinks => some 40
  | .other n _ _ => some n
  | .embeddedNul => none

def ofNumber? (n : Nat) : Option Fault :=
  [.notFound, .inputOutput, .denied, .notDirectory, .isDirectory, .noSpace, .brokenPipe,
    .nameTooLong, .tooManyLinks].find? fun fault => fault.number? = some n

def reason : Fault → Text
  | .notFound => "No such file or directory"
  | .inputOutput => "Input/output error"
  | .denied => "Permission denied"
  | .notDirectory => "Not a directory"
  | .isDirectory => "Is a directory"
  | .noSpace => "No space left on device"
  | .brokenPipe => "Broken pipe"
  | .nameTooLong => "File name too long"
  | .tooManyLinks => "Too many levels of symbolic links"
  | .other _ wording _ => wording
  | .embeddedNul => "embedded null byte"

/-- A fault in a message, with the path that it concerns if that is known. -/
def message (fault : Fault) (path? : Option Text) : Text :=
  match fault.number? with
  | none => fault.reason
  | some n =>
    let base : Text := "[Errno " ++ Text.ofNat n ++ "] " ++ fault.reason
    match path? with
    | none => base
    | some path => base ++ ": " ++ path.quoted

end Fault

end TreeSieve
