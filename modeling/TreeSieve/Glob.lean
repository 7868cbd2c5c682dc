import TreeSieve.Text

/-!
# Globs

The pattern of a rule is read from left to right into tokens. A set in brackets, `?`, `*` and `/**`
are wildcards; everything else stands for itself. A backslash before `[`, `*`, `?` or another
backslash is dropped, and one that is the symbol just before a wildcard makes it literal.

`Glob.read` makes the tokens and `Glob.accepts` decides whether they match a text. `Glob.regex`
writes them as a regular expression with the same meaning.
-/

namespace TreeSieve

open TreeSieve.Sym

/-- A member of a set: a single symbol, or all symbols from one to another. -/
inductive SetItem where
  | single (s : Sym)
  | range (lo hi : Sym)
  deriving DecidableEq

namespace SetItem

/-- The members that the text of a set describes. A hyphen between two symbols makes a range, and
any other hyphen is a member. -/
def ofBody : Text → List SetItem
  | lo :: .char '-' :: hi :: rest => range lo hi :: ofBody rest
  | s :: rest => single s :: ofBody rest
  | [] => []

def isOrdered : SetItem → Bool
  | single _ => true
  | range lo hi => lo.code ≤ hi.code

def contains (s : Sym) : SetItem → Bool
  | single t => s.code == t.code
  | range lo hi => lo.code ≤ s.code && s.code ≤ hi.code

end SetItem

namespace Glob

/-- A token matches a part of a text. -/
inductive Token where
  /-- One symbol that stands for itself. -/
  | literal (s : Sym)
  /-- One symbol that belongs to the set, or does not belong to it. -/
  | set (negated : Bool) (items : List SetItem)
  /-- One symbol other than a line feed. -/
  | any
  /-- Symbols of one name. -/
  | star
  /-- Nothing, or a slash and any symbols other than line feeds. -/
  | deep
  deriving DecidableEq

end Glob

/-- A glob is a list of tokens. -/
abbrev Glob := List Glob.Token

namespace Glob

/-! ## Reading -/

def inBracket (s : Sym) : Bool := s ≠ slash && s ≠ .char ']'

/-- The text of the set whose opening bracket has just been read, and what follows the closing
one. -/
def bracket? (s : Text) : Option (Text × Text) :=
  match s.takeWhile inBracket, s.dropWhile inBracket with
  | b :: body, .char ']' :: rest => some (b :: body, rest)
  | _, _ => none

theorem bracket?_length {s body rest : Text} (h : bracket? s = some (body, rest)) :
    rest.length < s.length := by
  unfold bracket? at h
  split at h
  · next htake hdrop =>
    simp only [Option.some.injEq, Prod.mk.injEq] at h
    have := congrArg List.length (s.takeWhile_append_dropWhile (p := inBracket))
    rw [htake, hdrop] at this
    simp only [List.length_append, List.length_cons] at this
    rw [← h.2]
    omega
  · simp at h

/-- The tokens of a bracket with the given text. `!` in front makes the set negated. A bracket with
nothing else in it, or with a range whose ends are not in order, stands for itself. -/
def ofBracket (body : Text) : Glob :=
  let negated := body.head? == some (.char '!')
  let items := SetItem.ofBody (if negated then body.tail else body)
  if items.isEmpty || !items.all SetItem.isOrdered then
    (Sym.char '[' :: body ++ [Sym.char ']']).map Token.literal
  else [.set negated items]

/-- Whether a symbol loses a backslash before it. -/
def isEscapable (s : Sym) : Bool :=
  s = .char '[' || s = .char '*' || s = .char '?' || s = backslash

/-- The tokens of a text, where `literal` says whether a backslash comes just before it, so that a
wildcard here would be literal. -/
def readFrom (afterBackslash : Bool) : Text → Glob
  | [] => []
  | .char '\\' :: s :: rest =>
    if isEscapable s then .literal s :: readFrom (s = backslash) rest
    else .literal backslash :: readFrom true (s :: rest)
  | .char '/' :: .char '*' :: .char '*' :: rest => .deep :: readFrom false rest
  | s :: rest =>
    if afterBackslash then .literal s :: readFrom (s = backslash) rest
    else if s = .char '*' then .star :: readFrom false rest
    else if s = .char '?' then .any :: readFrom false rest
    else if s = .char '[' then
      match _h : bracket? rest with
      | some (body, after) => ofBracket body ++ readFrom false after
      | none => .literal s :: readFrom false rest
    else .literal s :: readFrom (s = backslash) rest
termination_by s => s.length
decreasing_by
  all_goals simp only [List.length_cons]
  all_goals first
    | omega
    | exact Nat.lt_succ_of_lt (bracket?_length ‹_›)

def read (pattern : Text) : Glob := readFrom false pattern

/-! ## Matching -/

/-- Whether a text has a first part of allowed symbols such that the rest of it passes a test. -/
def someSplit (allowed : Sym → Bool) (test : Text → Bool) : Text → Bool
  | [] => test []
  | s :: rest => test (s :: rest) || (allowed s && someSplit allowed test rest)

/-- Whether a glob matches a text, all of it. -/
def accepts : Glob → Text → Bool
  | [], t => t.isEmpty
  | .literal s :: g, t =>
    match t with
    | [] => false
    | c :: t => c == s && accepts g t
  | .set negated items :: g, t =>
    match t with
    | [] => false
    | c :: t => items.any (SetItem.contains c) != negated && accepts g t
  | .any :: g, t =>
    match t with
    | [] => false
    | c :: t => c != lineFeed && accepts g t
  | .star :: g, t => someSplit (· != slash) (accepts g) t
  | .deep :: g, t =>
    accepts g t ||
      match t with
      | [] => false
      | c :: t => c == slash && someSplit (· != lineFeed) (accepts g) t

end Glob

end TreeSieve
