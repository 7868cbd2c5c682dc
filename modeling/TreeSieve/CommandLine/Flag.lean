import TreeSieve.Text

/-!
# The options of the command line

Every option has a name of one letter, a long name or both. Some take a value.
-/

namespace TreeSieve.CommandLine

inductive Flag where
  | help
  | version
  | literalPath
  | ruleFileName
  | rulePattern
  | includeRuleFiles
  | directory
  | depth
  | hidden
  | force
  | ignored
  | followLinks
  | output
  | null
  | errorAction
  | verbose
  deriving DecidableEq

namespace Flag

/-- The options in the order in which they are listed. -/
def all : List Flag :=
  [help, version, literalPath, ruleFileName, rulePattern, includeRuleFiles, directory, depth,
    hidden, force, ignored, followLinks, output, null, errorAction, verbose]

def spellings : Flag → List Text
  | help => ["-h", "--help"]
  | version => ["-V", "--version"]
  | literalPath => ["-l", "--literal-path"]
  | ruleFileName => ["-n", "--ignore-file-name"]
  | rulePattern => ["-p", "--ignore-pattern"]
  | includeRuleFiles => ["-I", "--include-ignore-files"]
  | directory => ["-d", "--directory"]
  | depth => ["--depth"]
  | hidden => ["-a", "--hidden"]
  | force => ["-f", "--force"]
  | ignored => ["--ignored"]
  | followLinks => ["-L", "--follow-symlinks"]
  | output => ["-o", "--output"]
  | null => ["-0", "--null"]
  | errorAction => ["-E", "--error-action"]
  | verbose => ["-v", "--verbose"]

/-- All names with their options, in the order in which they are listed. -/
def table : List (Text × Flag) := all.flatMap fun flag => flag.spellings.map (·, flag)

def ofSpelling? (name : Text) : Option Flag := table.lookup name

def takesValue : Flag → Bool
  | literalPath | ruleFileName | rulePattern | depth | output | errorAction => true
  | _ => false

/-- An option as messages name it, with all its names. -/
def display (flag : Flag) : Text := Text.joinWith "/" flag.spellings

end Flag

end TreeSieve.CommandLine
