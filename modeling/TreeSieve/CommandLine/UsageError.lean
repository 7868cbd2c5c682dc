import TreeSieve.CommandLine.Flag
import TreeSieve.Text.Numeral

/-!
# Errors in the use of the command line
-/

namespace TreeSieve.CommandLine

/-- Why a command line cannot be understood. -/
inductive UsageError where
  /-- The beginning of a long name fits several options. -/
  | ambiguous (word : Text) (candidates : List Text)
  /-- An option comes without its value. -/
  | missingValue (flag : Flag)
  /-- An option that takes no value comes with one. -/
  | unexpectedValue (flag : Flag) (value : Text)
  /-- The value of an option is not a count. -/
  | notCount (flag : Flag) (error : Numeral.CountError)
  /-- The value of an option is none of its choices. -/
  | notChoice (flag : Flag) (value : Text) (choices : List Text)
  /-- Words that belong to nothing. -/
  | unrecognized (words : List Text)
  deriving DecidableEq

namespace UsageError

def about (flag : Flag) : Text := "argument " ++ flag.display ++ ": "

def message : UsageError → Text
  | .ambiguous word candidates =>
    "ambiguous option: " ++ word ++ " could match " ++ Text.joinWith ", " candidates
  | .missingValue flag => about flag ++ "expected one argument"
  | .unexpectedValue flag value => about flag ++ "ignored explicit argument " ++ value.quoted
  | .notCount flag error => about flag ++ error.message
  | .notChoice flag value choices =>
    about flag ++ "invalid choice: " ++ value.quoted ++ " (choose from " ++
      Text.joinWith ", " (choices.map Text.quoted) ++ ")"
  | .unrecognized words => "unrecognized arguments: " ++ Text.joinWith " " words

end UsageError

end TreeSieve.CommandLine
