import TreeSieve.Glob

/-!
# Wildcards in a single name

The wildcards of a path argument are those of file name expansion, which read sets differently from
rules. `!` makes a set negated, a closing bracket that comes first is a member, and a hyphen makes a
range only if it has a symbol on either side that no other range uses. A range whose ends are not
in order is dropped with both ends.

The patterns are read into globs: `?` is a negated set without members, since it matches every
symbol, and a set that has lost all its members matches none.
-/

namespace TreeSieve.NamePattern

open TreeSieve.Sym

abbrev hyphen : Sym := .char '-'

/-- The mark of a negated set. -/
abbrev bang : Sym := .char '!'

abbrev close : Sym := .char ']'

/-- The text of the set whose opening bracket has just been read, and what follows the closing one.
A closing bracket right at the start, or right after the mark of negation, does not close. -/
def bracket? (s : Text) : Option (Text × Text) :=
  let (mark, s) := if s.head? = some bang then (s.take 1, s.drop 1) else ([], s)
  let (first, s) := if s.head? = some close then (s.take 1, s.drop 1) else ([], s)
  match s.dropWhile (· ≠ close) with
  | _ :: rest => some (mark ++ first ++ s.takeWhile (· ≠ close), rest)
  | [] => none

theorem bracket?_length {s body rest : Text} (h : bracket? s = some (body, rest)) :
    rest.length < s.length := by
  unfold bracket? at h
  split at h
  next mark s₁ h₁ =>
  split at h
  next first s₂ h₂ =>
  have hs₁ : s₁.length ≤ s.length := by
    split at h₁ <;> (obtain ⟨-, rfl⟩ := Prod.mk.inj h₁; simp)
  have hs₂ : s₂.length ≤ s₁.length := by
    split at h₂ <;> (obtain ⟨-, rfl⟩ := Prod.mk.inj h₂; simp)
  have hd := (List.dropWhile_sublist (fun x => decide (x ≠ close)) (l := s₂)).length_le
  split at h
  · next heq =>
    obtain ⟨-, rfl⟩ := Prod.mk.inj (Option.some.inj h)
    rw [heq, List.length_cons] at hd
    omega
  · simp at h

/-- The parts of the text of a set between the hyphens that make ranges. Such a hyphen comes after
at least `lead` symbols, and the next one has two symbols or more before it. -/
def parts (lead : Nat) (s : Text) : List Text :=
  match h : (s.drop lead).dropWhile (· ≠ hyphen) with
  | _ :: rest =>
    have : rest.length < s.length := by
      have := (List.dropWhile_sublist (fun x => decide (x ≠ hyphen)) (l := s.drop lead)).length_le
      rw [h, List.length_cons, List.length_drop] at this
      omega
    (s.take lead ++ (s.drop lead).takeWhile (· ≠ hyphen)) :: parts 2 rest
  | [] => [s]
termination_by s.length

/-- The parts of a set where an empty last part gives its hyphen back to the part before it. -/
def restoreLast : List Text → List Text
  | [part, []] => [part ++ [hyphen]]
  | part :: rest => part :: restoreLast rest
  | [] => []

/-- The parts of a set without the ranges whose ends are not in order. -/
def dropReversed : List Text → List Text
  | [] => []
  | part :: rest =>
    match dropReversed rest with
    | [] => [part]
    | next :: more =>
      match part.getLast?, next.head? with
      | some lo, some hi =>
        if hi.code < lo.code then (part.dropLast ++ next.tail) :: more else part :: next :: more
      | _, _ => part :: next :: more

/-- The symbols of parts, where each hyphen between parts is marked as making a range. -/
def marked : List Text → List (Sym × Bool)
  | [] => []
  | [part] => part.map (·, false)
  | part :: rest => part.map (·, false) ++ (hyphen, true) :: marked rest

/-- The members that marked symbols describe. -/
def members : List (Sym × Bool) → List SetItem
  | (lo, _) :: (_, true) :: (hi, _) :: rest => .range lo hi :: members rest
  | (s, _) :: rest => .single s :: members rest
  | [] => []

def ofBracket (body : Text) : Glob.Token :=
  let lead := if body.head? = some bang then 2 else 1
  match marked (dropReversed (restoreLast (parts lead body))) with
  | (.char '!', false) :: rest => .set true (members rest)
  | symbols => .set false (members symbols)

/-- The glob that matches the names that a pattern matches. -/
def read : Text → Glob
  | [] => []
  | s :: rest =>
    if s = .char '*' then .star :: read rest
    else if s = .char '?' then .set true [] :: read rest
    else if s = .char '[' then
      match _h : bracket? rest with
      | some (body, after) => ofBracket body :: read after
      | none => .literal s :: read rest
    else .literal s :: read rest
termination_by s => s.length
decreasing_by
  all_goals simp only [List.length_cons]
  all_goals first
    | omega
    | exact Nat.lt_succ_of_lt (bracket?_length ‹_›)

def accepts (pattern name : Text) : Bool := (read pattern).accepts name

end TreeSieve.NamePattern
