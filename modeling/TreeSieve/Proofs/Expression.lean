import Mathlib.Data.Char
import TreeSieve.Glob.Regex

/-!
# Regular expressions

The part of the usual syntax of regular expressions that is enough for rules: literal symbols, `.`,
sets, groups, the quantifiers `*` and `?`, and `\Z` for the end of the text. `Expression.Matches`
says which parts of a text an expression matches, and `Expression.read` reads one from its text.

The reader knows nothing about globs. It refuses everything that is not well formed, and whatever
has a meaning that is not described here: a backslash before a letter or digit, a group that begins
with `?`, a quantifier after a quantifier. So what it reads is read by the usual engines too, and
means the same there.
-/

namespace TreeSieve

open TreeSieve.Sym

inductive Expression where
  | literal (s : Sym)
  /-- One symbol other than a line feed. -/
  | any
  /-- One symbol that belongs to the set, or does not belong to it. -/
  | set (negated : Bool) (items : List SetItem)
  /-- The end of the text. -/
  | textEnd
  | empty
  | sequence (e f : Expression)
  | group (e : Expression)
  | star (e : Expression)
  | optional (e : Expression)
  deriving DecidableEq

namespace Expression

/-- An expression matches a part of a text, with the given rest behind it. -/
inductive Matches : Expression → (part rest : Text) → Prop
  | literal (s : Sym) (rest : Text) : Matches (.literal s) [s] rest
  | any {c : Sym} (hc : c ≠ lineFeed) (rest : Text) : Matches .any [c] rest
  | set {negated : Bool} {items : List SetItem} {c : Sym}
      (hc : items.any (SetItem.contains c) ≠ negated) (rest : Text) :
      Matches (.set negated items) [c] rest
  | textEnd : Matches .textEnd [] []
  | empty (rest : Text) : Matches .empty [] rest
  | sequence {e f : Expression} {p q rest : Text} (he : Matches e p (q ++ rest))
      (hf : Matches f q rest) : Matches (.sequence e f) (p ++ q) rest
  | group {e : Expression} {p rest : Text} (he : Matches e p rest) : Matches (.group e) p rest
  | starNone (e : Expression) (rest : Text) : Matches (.star e) [] rest
  | starMore {e : Expression} {p q rest : Text} (he : Matches e p (q ++ rest))
      (hs : Matches (.star e) q rest) : Matches (.star e) (p ++ q) rest
  | optionalNone (e : Expression) (rest : Text) : Matches (.optional e) [] rest
  | optionalSome {e : Expression} {p rest : Text} (he : Matches e p rest) :
      Matches (.optional e) p rest

/-- An expression matches at the beginning of a text. -/
def MatchesStart (e : Expression) (t : Text) : Prop :=
  ∃ part rest, t = part ++ rest ∧ e.Matches part rest

/-! ## Reading sets -/

/-- Whether a symbol is a letter or digit of ASCII. These have a meaning after a backslash. -/
def isAlphanumeric : Sym → Bool
  | .char c => c.isAlphanum
  | .raw _ => false

/-- The first symbol of a set's text and what follows it. A backslash makes the next one literal. -/
def readMember : Text → Option (Sym × Text)
  | [] => none
  | s :: rest =>
    if s = backslash then
      match rest with
      | [] => none
      | c :: rest => if isAlphanumeric c then none else some (c, rest)
    else some (s, rest)

theorem length_readMember {t rest : Text} {s : Sym} (h : readMember t = some (s, rest)) :
    rest.length < t.length := by
  unfold readMember at h
  split at h
  · cases h
  · split at h
    · split at h
      · cases h
      · split at h
        · cases h
        · cases h
          simp only [List.length_cons]
          omega
    · cases h
      exact Nat.lt_succ_self _

/-- The members of a set up to its closing bracket, and what follows that. The members that have
been read are given last one first. A closing bracket that comes first is a member, and so is a
hyphen with nothing before it or nothing behind it. Other hyphens make ranges, whose ends have to be
in order. -/
def readMembers (found : List SetItem) (t : Text) : Option (List SetItem × Text) :=
  if t.head? = some (.char ']') ∧ found ≠ [] then some (found.reverse, t.tail)
  else
    match _h : readMember t with
    | none => none
    | some (lo, .char '-' :: .char ']' :: rest) =>
      some ((.single (.char '-') :: .single lo :: found).reverse, rest)
    | some (lo, .char '-' :: rest) =>
      match _h' : readMember rest with
      | none => none
      | some (hi, rest) =>
        if lo.code ≤ hi.code then readMembers (.range lo hi :: found) rest else none
    | some (s, rest) => readMembers (.single s :: found) rest
termination_by t.length
decreasing_by
  · have := length_readMember _h
    have := length_readMember _h'
    simp only [List.length_cons] at *
    omega
  · exact length_readMember _h

theorem length_readMembers {found : List SetItem} {t rest : Text} {items : List SetItem}
    (h : readMembers found t = some (items, rest)) : rest.length ≤ t.length := by
  fun_induction readMembers found t with
  | case1 found t hclose =>
    cases h
    simp
  | case2 => cases h
  | case3 found t hclose lo after hread =>
    cases h
    have := length_readMember hread
    simp only [List.length_cons] at this
    omega
  | case4 => cases h
  | case5 found t hclose lo after hhyphen hread hi after' hread' hord ih =>
    have := length_readMember hread
    have := length_readMember hread'
    have := ih h
    simp only [List.length_cons] at *
    omega
  | case6 => cases h
  | case7 found t hclose s after hhyphen hclosed hread ih =>
    have := length_readMember hread
    have := ih h
    omega

section Members

variable {found : List SetItem} {t u rest : Text} {s lo hi : Sym}

theorem readMembers_close (hfound : found ≠ []) :
    readMembers found (.char ']' :: rest) = some (found.reverse, rest) := by
  rw [readMembers, if_pos ⟨rfl, hfound⟩]
  rfl

variable (hclose : t.head? ≠ some (.char ']'))

include hclose

theorem readMembers_single (hs : readMember t = some (s, u)) (hu : u.head? ≠ some (.char '-')) :
    readMembers found t = readMembers (.single s :: found) u := by
  rw [readMembers, if_neg fun h => hclose h.1]
  split
  · next h =>
    rw [hs] at h
    cases h
  · next h =>
    rw [hs] at h
    cases h
    exact absurd rfl hu
  · next h =>
    rw [hs] at h
    cases h
    exact absurd rfl hu
  · next h =>
    rw [hs] at h
    cases h
    rfl

theorem readMembers_hyphen (hs : readMember t = some (s, .char '-' :: .char ']' :: rest)) :
    readMembers found t = some (found.reverse ++ [.single s, .single (.char '-')], rest) := by
  rw [readMembers, if_neg fun h => hclose h.1]
  split
  · next h =>
    rw [hs] at h
    cases h
  · next h =>
    rw [hs] at h
    cases h
    simp
  · next hno h =>
    rw [hs] at h
    cases h
    exact absurd rfl (hno rest)
  · next hno h =>
    rw [hs] at h
    cases h
    exact absurd rfl (hno _)

theorem readMembers_range (hlo : readMember t = some (lo, .char '-' :: u))
    (hu : u.head? ≠ some (.char ']')) (hhi : readMember u = some (hi, rest)) :
    readMembers found t =
      if lo.code ≤ hi.code then readMembers (.range lo hi :: found) rest else none := by
  rw [readMembers, if_neg fun h => hclose h.1]
  split
  · next h =>
    rw [hlo] at h
    cases h
  · next h =>
    rw [hlo] at h
    cases h
    exact absurd rfl hu
  · next h =>
    rw [hlo] at h
    cases h
    split
    · next h =>
      rw [hhi] at h
      cases h
    · next h =>
      rw [hhi] at h
      cases h
      rfl
  · next hno h =>
    rw [hlo] at h
    cases h
    exact absurd rfl (hno u)

end Members

/-- The set whose opening bracket has just been read, and what follows its closing one. -/
def readSet (t : Text) : Option (Expression × Text) :=
  if t.head? = some (.char '^') then
    (readMembers [] t.tail).map fun (items, rest) => (.set true items, rest)
  else (readMembers [] t).map fun (items, rest) => (.set false items, rest)

theorem length_readSet {t rest : Text} {e : Expression} (h : readSet t = some (e, rest)) :
    rest.length ≤ t.length := by
  rw [readSet] at h
  split at h
  · obtain ⟨⟨items, after⟩, hread, heq⟩ := Option.map_eq_some_iff.1 h
    obtain ⟨-, rfl⟩ := Prod.mk.inj heq
    exact Nat.le_trans (length_readMembers hread) (by simp)
  · obtain ⟨⟨items, after⟩, hread, heq⟩ := Option.map_eq_some_iff.1 h
    obtain ⟨-, rfl⟩ := Prod.mk.inj heq
    exact length_readMembers hread

/-! ## Reading expressions -/

/-- Expressions that match one after the other. -/
def inSequence (es : List Expression) : Expression := es.foldr sequence empty

/-- What a symbol means after a backslash. -/
def ofEscape (s : Sym) : Option Expression :=
  if s = .char 'Z' then some textEnd else if isAlphanumeric s then none else some (literal s)

/-- Whether a quantifier can come after an expression. -/
def isQuantifiable : Expression → Bool
  | .star _ => false
  | .optional _ => false
  | .textEnd => false
  | _ => true

/-- The symbols with a meaning that is not described here. -/
def unsupported : Text := Text.ofChars ['^', '$', '|', '+', '\x7b']

/-- The last expression of a list that is given last one first, made into another one by a
quantifier. -/
def quantify (quantifier : Expression → Expression) : List Expression → Option (List Expression)
  | [] => none
  | e :: es => if e.isQuantifiable then some (quantifier e :: es) else none

/-- The expression of a text. What has been read is given last one first, for the innermost open
group and, in `outer`, for those around it. -/
def readFrom (outer : List (List Expression)) (es : List Expression) : Text → Option Expression
  | [] => if outer = [] then some (inSequence es.reverse) else none
  | s :: rest =>
    if s = backslash then
      match rest with
      | [] => none
      | c :: rest =>
        match ofEscape c with
        | some e => readFrom outer (e :: es) rest
        | none => none
    else if s = .char '[' then
      match _h : readSet rest with
      | some (e, rest) => readFrom outer (e :: es) rest
      | none => none
    else if s = .char '.' then readFrom outer (any :: es) rest
    else if s = .char '(' then
      if rest.head? = some (.char '?') then none else readFrom (es :: outer) [] rest
    else if s = .char ')' then
      match outer with
      | [] => none
      | before :: outer => readFrom outer (group (inSequence es.reverse) :: before) rest
    else if s = .char '*' then
      match quantify star es with
      | some es => readFrom outer es rest
      | none => none
    else if s = .char '?' then
      match quantify optional es with
      | some es => readFrom outer es rest
      | none => none
    else if s ∈ unsupported then none
    else readFrom outer (literal s :: es) rest
termination_by t => t.length
decreasing_by
  all_goals simp only [List.length_cons]
  all_goals first
    | omega
    | exact Nat.lt_succ_of_le (length_readSet ‹_›)

section Reading

variable (outer : List (List Expression)) (es : List Expression) (rest : Text)

theorem readFrom_nil : readFrom [] es [] = some (inSequence es.reverse) := by
  rw [readFrom, if_pos rfl]

variable {outer es}

theorem readFrom_escape {c : Sym} {e : Expression} (hc : ofEscape c = some e) :
    readFrom outer es (backslash :: c :: rest) = readFrom outer (e :: es) rest := by
  rw [readFrom.eq_def]
  simp [hc]

theorem readFrom_set {t rest : Text} {e : Expression} (ht : readSet t = some (e, rest)) :
    readFrom outer es (.char '[' :: t) = readFrom outer (e :: es) rest := by
  rw [readFrom.eq_def]
  simp only [Sym.char.injEq, Char.reduceEq, if_false, if_true]
  split
  · next h =>
    rw [ht] at h
    cases h
    rfl
  · next h =>
    rw [ht] at h
    cases h

theorem readFrom_any :
    readFrom outer es (.char '.' :: rest) = readFrom outer (.any :: es) rest := by
  rw [readFrom.eq_def]
  simp

theorem readFrom_open {rest : Text} (hrest : rest.head? ≠ some (.char '?')) :
    readFrom outer es (.char '(' :: rest) = readFrom (es :: outer) [] rest := by
  rw [readFrom.eq_def]
  simp [hrest]

theorem readFrom_close {before : List Expression} :
    readFrom (before :: outer) es (.char ')' :: rest) =
      readFrom outer (group (inSequence es.reverse) :: before) rest := by
  rw [readFrom.eq_def]
  simp

theorem readFrom_star {e : Expression} (he : e.isQuantifiable = true) :
    readFrom outer (e :: es) (.char '*' :: rest) = readFrom outer (star e :: es) rest := by
  rw [readFrom.eq_def]
  simp [quantify, he]

theorem readFrom_optional {e : Expression} (he : e.isQuantifiable = true) :
    readFrom outer (e :: es) (.char '?' :: rest) = readFrom outer (optional e :: es) rest := by
  rw [readFrom.eq_def]
  simp [quantify, he]

/-- A symbol without a meaning of its own is literal. -/
theorem readFrom_plain {s : Sym}
    (hs : s ∉ backslash :: Text.ofChars ['[', '.', '(', ')', '*', '?'] ++ unsupported) :
    readFrom outer es (s :: rest) = readFrom outer (literal s :: es) rest := by
  rw [readFrom.eq_def]
  simp_all [Text.ofChars]

end Reading

/-- The expression of a text, if that is well formed. -/
def read (t : Text) : Option Expression := readFrom [] [] t

/-! ## What each expression matches -/

section Matching

variable {e f : Expression} {part rest : Text}

theorem literal_iff {s : Sym} : (literal s).Matches part rest ↔ part = [s] := by
  constructor
  · rintro ⟨⟩
    rfl
  · rintro rfl
    exact .literal s rest

theorem any_iff : any.Matches part rest ↔ ∃ c, part = [c] ∧ c ≠ lineFeed := by
  constructor
  · intro h
    cases h with
    | any hc => exact ⟨_, rfl, hc⟩
  · rintro ⟨c, rfl, hc⟩
    exact .any hc rest

theorem set_iff {negated : Bool} {items : List SetItem} :
    (set negated items).Matches part rest ↔
      ∃ c, part = [c] ∧ items.any (SetItem.contains c) ≠ negated := by
  constructor
  · intro h
    cases h with
    | set hc => exact ⟨_, rfl, hc⟩
  · rintro ⟨c, rfl, hc⟩
    exact .set hc rest

theorem textEnd_iff : textEnd.Matches part rest ↔ part = [] ∧ rest = [] := by
  constructor
  · rintro ⟨⟩
    exact ⟨rfl, rfl⟩
  · rintro ⟨rfl, rfl⟩
    exact .textEnd

theorem empty_iff : empty.Matches part rest ↔ part = [] := by
  constructor
  · rintro ⟨⟩
    rfl
  · rintro rfl
    exact .empty rest

theorem sequence_iff : (sequence e f).Matches part rest ↔
    ∃ p q, part = p ++ q ∧ e.Matches p (q ++ rest) ∧ f.Matches q rest := by
  constructor
  · intro h
    cases h with
    | sequence he hf => exact ⟨_, _, rfl, he, hf⟩
  · rintro ⟨p, q, rfl, he, hf⟩
    exact .sequence he hf

theorem group_iff : (group e).Matches part rest ↔ e.Matches part rest := by
  constructor
  · intro h
    cases h with
    | group he => exact he
  · exact .group

theorem optional_iff : (optional e).Matches part rest ↔ part = [] ∨ e.Matches part rest := by
  constructor
  · intro h
    cases h with
    | optionalNone => exact Or.inl rfl
    | optionalSome he => exact Or.inr he
  · rintro (rfl | he)
    · exact .optionalNone e rest
    · exact .optionalSome he

/-- What is matched one symbol at a time by an expression in a star. -/
theorem star_iff {one : Sym → Prop} (he : ∀ p rest, e.Matches p rest ↔ ∃ c, p = [c] ∧ one c) :
    (star e).Matches part rest ↔ ∀ c ∈ part, one c := by
  constructor
  · intro h
    generalize hs : star e = s at h
    induction h with
    | starNone => simp
    | starMore hfirst _ _ ih =>
      cases hs
      obtain ⟨c, rfl, hc⟩ := (he _ _).1 hfirst
      exact List.forall_mem_cons.2 ⟨hc, ih rfl⟩
    | _ => cases hs
  · intro h
    induction part with
    | nil => exact .starNone e rest
    | cons c part ih =>
      obtain ⟨hc, hpart⟩ := List.forall_mem_cons.1 h
      exact .starMore (p := [c]) ((he _ _).2 ⟨c, rfl, hc⟩) (ih hpart)

end Matching

end Expression

end TreeSieve
