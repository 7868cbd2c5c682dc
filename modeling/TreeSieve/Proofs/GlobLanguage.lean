import Mathlib.Data.List.Induction
import Mathlib.Data.List.TakeWhile
import TreeSieve.Rule

/-!
# The language of globs

A pattern is cut into pieces from left to right: brackets, the wildcards `/**`, `*` and `?`, and the
runs of literal text between them (`Glob.pieces`). A wildcard or bracket after a backslash belongs
to a run. In each run, a backslash before `[`, `*`, `?` or another backslash is removed
(`Glob.unescapeRun`).

Reading a pattern into tokens does the two things at once. `Glob.readFrom_eq` says that it comes to
the same, and `Glob.accepts_read_iff` that a glob accepts the texts that are made of one part for
each piece of its pattern.
-/

namespace TreeSieve

open TreeSieve.Sym

/-- A text consists of parts for the elements of a list, one after the other. -/
inductive Concatenates {α : Type} (matching : α → Text → Prop) : List α → Text → Prop
  | nil : Concatenates matching [] []
  | cons {a : α} {l : List α} {p q : Text} (h : matching a p) (ht : Concatenates matching l q) :
      Concatenates matching (a :: l) (p ++ q)

namespace Concatenates

variable {α : Type} {matching : α → Text → Prop}

theorem nil_iff {t : Text} : Concatenates matching [] t ↔ t = [] := by
  constructor
  · rintro ⟨⟩
    rfl
  · rintro rfl
    exact .nil

theorem cons_iff {a : α} {l : List α} {t : Text} : Concatenates matching (a :: l) t ↔
    ∃ p q, t = p ++ q ∧ matching a p ∧ Concatenates matching l q := by
  constructor
  · rintro ⟨⟩
    exact ⟨_, _, rfl, ‹_›, ‹_›⟩
  · rintro ⟨p, q, rfl, h, ht⟩
    exact .cons h ht

theorem singleton_iff {a : α} {t : Text} : Concatenates matching [a] t ↔ matching a t := by
  simp [cons_iff, nil_iff]

theorem append_iff {l m : List α} {t : Text} : Concatenates matching (l ++ m) t ↔
    ∃ p q, t = p ++ q ∧ Concatenates matching l p ∧ Concatenates matching m q := by
  induction l generalizing t with
  | nil =>
    constructor
    · intro h
      exact ⟨[], t, rfl, .nil, h⟩
    · rintro ⟨p, q, rfl, hp, hq⟩
      rwa [nil_iff.1 hp]
  | cons a l ih =>
    simp only [List.cons_append, cons_iff, ih]
    constructor
    · rintro ⟨p, _, rfl, hp, q, r, rfl, hq, hr⟩
      exact ⟨p ++ q, r, (List.append_assoc ..).symm, ⟨p, q, rfl, hp, hq⟩, hr⟩
    · rintro ⟨_, r, rfl, ⟨p, q, rfl, hp, hq⟩, hr⟩
      exact ⟨p, q ++ r, List.append_assoc .., hp, q, r, rfl, hq, hr⟩

end Concatenates

namespace Glob

/-! ## Tokens -/

/-- The parts of a text that a token matches. -/
def Token.Matches : Token → Text → Prop
  | .literal s, p => p = [s]
  | .set negated items, p => ∃ c, p = [c] ∧ items.any (SetItem.contains c) ≠ negated
  | .any, p => ∃ c, p = [c] ∧ c ≠ lineFeed
  | .star, p => slash ∉ p
  | .deep, p => p = [] ∨ ∃ u, p = slash :: u ∧ lineFeed ∉ u

theorem someSplit_iff {allowed : Sym → Bool} {test : Text → Bool} {t : Text} :
    someSplit allowed test t = true ↔
      ∃ p q, t = p ++ q ∧ (∀ c ∈ p, allowed c = true) ∧ test q = true := by
  induction t with
  | nil =>
    constructor
    · intro h
      exact ⟨[], [], rfl, by simp, h⟩
    · rintro ⟨p, q, ht, -, hq⟩
      obtain ⟨rfl, rfl⟩ := List.append_eq_nil_iff.1 ht.symm
      exact hq
  | cons s t ih =>
    rw [someSplit, Bool.or_eq_true, Bool.and_eq_true, ih]
    constructor
    · rintro (h | ⟨hs, p, q, rfl, hp, hq⟩)
      · exact ⟨[], s :: t, rfl, by simp, h⟩
      · exact ⟨s :: p, q, rfl, List.forall_mem_cons.2 ⟨hs, hp⟩, hq⟩
    · rintro ⟨p, q, ht, hp, hq⟩
      cases p with
      | nil =>
        obtain rfl : s :: t = q := ht
        exact Or.inl hq
      | cons c p =>
        obtain ⟨rfl, rfl⟩ := List.cons.inj ht
        obtain ⟨hs, hp⟩ := List.forall_mem_cons.1 hp
        exact Or.inr ⟨hs, p, q, rfl, hp, hq⟩

/-- A part that is one symbol is the first symbol of the text. -/
theorem exists_one_iff {one : Sym → Prop} {rest : Text → Prop} {s : Sym} {t : Text} :
    (∃ p q, s :: t = p ++ q ∧ (∃ c, p = [c] ∧ one c) ∧ rest q) ↔ one s ∧ rest t := by
  constructor
  · rintro ⟨_, q, heq, ⟨c, rfl, hc⟩, hq⟩
    obtain ⟨rfl, rfl⟩ := List.cons.inj heq
    exact ⟨hc, hq⟩
  · rintro ⟨hs, ht⟩
    exact ⟨[s], t, rfl, ⟨s, rfl, hs⟩, ht⟩

theorem accepts_cons_iff {token : Token} {g : Glob} {t : Text} :
    accepts (token :: g) t = true ↔
      ∃ p q, t = p ++ q ∧ token.Matches p ∧ g.accepts q = true := by
  have hfree : ∀ {s : Sym} {p : Text}, (∀ c ∈ p, (c != s) = true) ↔ s ∉ p := by
    simp only [bne_iff_ne]
    exact List.forall_mem_ne'
  cases token with
  | literal s =>
    have hone : ∀ p, Token.Matches (.literal s) p ↔ ∃ c, p = [c] ∧ c = s := by simp [Token.Matches]
    cases t with
    | nil => simp [accepts, Token.Matches]
    | cons c t => simp only [hone, exists_one_iff, accepts, Bool.and_eq_true, beq_iff_eq]
  | set negated items =>
    cases t with
    | nil => simp [accepts, Token.Matches]
    | cons c t =>
      simp only [Token.Matches, exists_one_iff, accepts, Bool.and_eq_true, bne_iff_ne]
  | any =>
    cases t with
    | nil => simp [accepts, Token.Matches]
    | cons c t =>
      simp only [Token.Matches, exists_one_iff, accepts, Bool.and_eq_true, bne_iff_ne]
  | star => simp only [accepts, someSplit_iff, hfree, Token.Matches]
  | deep =>
    constructor
    · intro h
      rw [accepts.eq_def] at h
      rcases (Bool.or_eq_true ..).mp h with h | h
      · exact ⟨[], t, rfl, Or.inl rfl, h⟩
      · cases t with
        | nil => cases h
        | cons c t =>
          simp only [Bool.and_eq_true, beq_iff_eq, someSplit_iff, hfree] at h
          obtain ⟨rfl, p, q, rfl, hp, hq⟩ := h
          exact ⟨slash :: p, q, rfl, Or.inr ⟨p, rfl, hp⟩, hq⟩
    · rintro ⟨p, q, rfl, rfl | ⟨u, rfl, hu⟩, hq⟩
      · rw [accepts.eq_def]
        exact (Bool.or_eq_true ..).mpr (Or.inl hq)
      · have hsplit : someSplit (· != lineFeed) g.accepts (u ++ q) = true :=
          someSplit_iff.2 ⟨u, q, rfl, hfree.2 hu, hq⟩
        simp [accepts, hsplit]

/-- A glob accepts the texts that consist of parts for its tokens. -/
theorem accepts_iff {g : Glob} {t : Text} :
    g.accepts t = true ↔ Concatenates Token.Matches g t := by
  induction g generalizing t with
  | nil => simp [accepts, Concatenates.nil_iff]
  | cons token g ih => simp only [accepts_cons_iff, Concatenates.cons_iff, ih]

theorem matches_literals {s t : Text} :
    Concatenates Token.Matches (s.map .literal) t ↔ t = s := by
  induction s generalizing t with
  | nil => exact Concatenates.nil_iff
  | cons c s ih =>
    rw [List.map_cons, Concatenates.cons_iff]
    constructor
    · rintro ⟨p, q, rfl, rfl, hq⟩
      rw [ih.1 hq]
      rfl
    · rintro rfl
      exact ⟨[c], s, rfl, rfl, ih.2 rfl⟩

/-! ## Pieces of a pattern -/

/-- A piece of a pattern. -/
inductive Piece where
  /-- Brackets around a text that has none of `/` and `]` in it. -/
  | bracket (body : Text)
  | deep
  | star
  | any
  /-- Literal text, with backslashes in it. -/
  | run (t : Text)
  deriving DecidableEq

/-- The text of a piece, as it stands in a pattern. -/
def Piece.text : Piece → Text
  | .bracket body => .char '[' :: body ++ [.char ']']
  | .deep => [.char '/', .char '*', .char '*']
  | .star => [.char '*']
  | .any => [.char '?']
  | .run t => t

/-- Whether a symbol belongs to a run of literal text. The slash never does, and wildcards and
opening brackets do after a backslash. -/
def inRun (afterBackslash : Bool) (s : Sym) : Bool :=
  s ≠ slash && (afterBackslash || (s ≠ .char '*' && s ≠ .char '?' && s ≠ .char '['))

/-- The run of literal text at the front of a pattern, which may stand after a backslash, and what
follows it. -/
def takeRun (afterBackslash : Bool) : Text → Text × Text
  | [] => ([], [])
  | s :: rest =>
    if inRun afterBackslash s then
      (s :: (takeRun (s = backslash) rest).1, (takeRun (s = backslash) rest).2)
    else ([], s :: rest)

/-- A literal text without its backslashes before `[`, `*`, `?` and other backslashes. They are
found from left to right and do not overlap. -/
def unescapeRun : Text → Text
  | [] => []
  | [s] => [s]
  | s :: c :: rest =>
    if s = backslash ∧ isEscapable c = true then c :: unescapeRun rest
    else s :: unescapeRun (c :: rest)

/-- The first piece of a pattern that begins with a symbol and may stand after a backslash, and what
follows the piece. A slash or an opening bracket that begins nothing else stands for itself. -/
def first (afterBackslash : Bool) (s : Sym) (rest : Text) : Piece × Text :=
  if inRun afterBackslash s then
    (.run (takeRun afterBackslash (s :: rest)).1, (takeRun afterBackslash (s :: rest)).2)
  else if s = slash then
    match rest with
    | .char '*' :: .char '*' :: rest => (.deep, rest)
    | _ => (.run [s], rest)
  else if s = .char '*' then (.star, rest)
  else if s = .char '?' then (.any, rest)
  else
    match bracket? rest with
    | some (body, rest) => (.bracket body, rest)
    | none => (.run [s], rest)

/-- A bracket is the text up to the next closing bracket. There is something in it, but no slash. -/
theorem bracket?_eq_some_iff {t body rest : Text} : bracket? t = some (body, rest) ↔
    t = body ++ .char ']' :: rest ∧ body ≠ [] ∧ ∀ s ∈ body, inBracket s = true := by
  constructor
  · intro h
    rw [bracket?] at h
    split at h
    · next htake hdrop =>
      cases h
      refine ⟨?_, List.cons_ne_nil _ _, ?_⟩
      · rw [← htake, ← hdrop, List.takeWhile_append_dropWhile]
      · intro s hs
        rw [← htake] at hs
        exact List.mem_takeWhile_imp hs
    · cases h
  · rintro ⟨rfl, hne, hbody⟩
    obtain ⟨s, body, rfl⟩ := List.exists_cons_of_ne_nil hne
    have hclose : ¬inBracket (.char ']') = true := by decide
    rw [bracket?, List.takeWhile_append_of_pos hbody, List.dropWhile_append_of_pos hbody,
      List.takeWhile_cons_of_neg hclose, List.dropWhile_cons_of_neg hclose, List.append_nil]
    rfl

theorem takeRun_append (afterBackslash : Bool) (t : Text) :
    (takeRun afterBackslash t).1 ++ (takeRun afterBackslash t).2 = t := by
  induction t generalizing afterBackslash with
  | nil => rfl
  | cons s rest ih =>
    rw [takeRun]
    split
    · rw [List.cons_append, ih]
    · rfl

/-- A symbol that begins neither a run nor `/**` nor a wildcard is an opening bracket. -/
theorem eq_open_of_inRun {afterBackslash : Bool} {s : Sym} (hrun : ¬inRun afterBackslash s = true)
    (hslash : s ≠ slash) (hstar : s ≠ .char '*') (hany : s ≠ .char '?') : s = .char '[' := by
  by_contra hopen
  simp [inRun, hslash, hstar, hany, hopen] at hrun

/-- The first piece and what follows it make up the pattern. -/
theorem first_append (afterBackslash : Bool) (s : Sym) (rest : Text) :
    (first afterBackslash s rest).1.text ++ (first afterBackslash s rest).2 = s :: rest := by
  unfold first
  split
  · exact takeRun_append ..
  · next hrun =>
    split
    · next hslash =>
      rw [hslash]
      split <;> rfl
    · next hslash =>
      split
      · next hstar =>
        rw [hstar]
        rfl
      · next hstar =>
        split
        · next hany =>
          rw [hany]
          rfl
        · next hany =>
          split
          · next hbracket =>
            rw [eq_open_of_inRun hrun hslash hstar hany, (bracket?_eq_some_iff.1 hbracket).1]
            simp [Piece.text]
          · rfl

theorem first_text_ne_nil (afterBackslash : Bool) (s : Sym) (rest : Text) :
    (first afterBackslash s rest).1.text ≠ [] := by
  unfold first
  split
  · next hrun =>
    rw [takeRun, if_pos hrun]
    exact List.cons_ne_nil _ _
  · (repeat' split) <;> exact List.cons_ne_nil _ _

theorem length_first (afterBackslash : Bool) (s : Sym) (rest : Text) :
    (first afterBackslash s rest).2.length ≤ rest.length := by
  have htext := List.length_pos_iff.2 (first_text_ne_nil afterBackslash s rest)
  have hlength := congrArg List.length (first_append afterBackslash s rest)
  rw [List.length_append, List.length_cons] at hlength
  omega

/-- Whether a text ends in a backslash, where the empty one stands after a backslash or not. -/
def endsInBackslash (afterBackslash : Bool) (t : Text) : Bool :=
  match t.getLast? with
  | none => afterBackslash
  | some s => s = backslash

/-- The pieces of a pattern, which may stand after a backslash. -/
def pieces (afterBackslash : Bool) : Text → List Piece
  | [] => []
  | s :: rest =>
    (first afterBackslash s rest).1 ::
      pieces (endsInBackslash false (first afterBackslash s rest).1.text)
        (first afterBackslash s rest).2
termination_by t => t.length
decreasing_by exact Nat.lt_succ_of_le (length_first ..)

/-- A pattern consists of the texts of its pieces. -/
theorem flatMap_text_pieces (afterBackslash : Bool) (t : Text) :
    (pieces afterBackslash t).flatMap Piece.text = t := by
  fun_induction pieces afterBackslash t with
  | case1 => rfl
  | case2 afterBackslash s rest ih => rw [List.flatMap_cons, ih, first_append]

/-- The symbols and ranges that the text in a bracket lists, after a `!` in front. -/
def bracketItems (body : Text) : List SetItem :=
  SetItem.ofBody (if body.head? = some (.char '!') then body.tail else body)

/-- A bracket that lists nothing, or has a range whose ends are not in order. -/
def IsMalformed (body : Text) : Prop :=
  bracketItems body = [] ∨ ∃ item ∈ bracketItems body, item.isOrdered = false

/-- The parts of a text that a piece matches. A bracket matches one symbol, which is among those
that it lists unless it begins with `!`. A malformed bracket stands for itself. -/
inductive Piece.Matches : Piece → Text → Prop
  | listed {body : Text} {c : Sym} (hbody : ¬IsMalformed body)
      (hc : (∃ item ∈ bracketItems body, item.contains c = true) ↔ body.head? ≠ some (.char '!')) :
      Matches (.bracket body) [c]
  | malformed {body : Text} (hbody : IsMalformed body) :
      Matches (.bracket body) (.char '[' :: body ++ [.char ']'])
  | none : Matches .deep []
  | below {u : Text} (hu : lineFeed ∉ u) : Matches .deep (slash :: u)
  | star {p : Text} (hp : slash ∉ p) : Matches .star p
  | any {c : Sym} (hc : c ≠ lineFeed) : Matches .any [c]
  | run {t : Text} : Matches (.run t) (unescapeRun t)

/-- The texts that a pattern describes. They consist of one part for each piece of it. -/
def Describes (pattern : Text) : Text → Prop := Concatenates Piece.Matches (pieces false pattern)

/-! ## Tokens of the pieces -/

/-- The tokens of a piece. -/
def Piece.tokens : Piece → Glob
  | .bracket body => ofBracket body
  | .deep => [.deep]
  | .star => [.star]
  | .any => [.any]
  | .run t => (unescapeRun t).map .literal

theorem isMalformed_iff {body : Text} : IsMalformed body ↔
    ((bracketItems body).isEmpty || !(bracketItems body).all SetItem.isOrdered) = true := by
  simp [IsMalformed]

theorem ofBracket_eq (body : Text) : ofBracket body =
    if (bracketItems body).isEmpty || !(bracketItems body).all SetItem.isOrdered then
      (Sym.char '[' :: body ++ [Sym.char ']']).map Token.literal
    else [.set (body.head? == some (.char '!')) (bracketItems body)] := by
  by_cases h : body.head? = some (.char '!') <;> simp [ofBracket, bracketItems, h]

/-- The tokens of a bracket match one symbol that it lists, or the bracket itself. -/
theorem ofBracket_matches_iff {body p : Text} :
    Concatenates Token.Matches (ofBracket body) p ↔ (Piece.bracket body).Matches p := by
  rw [ofBracket_eq]
  by_cases hbody : IsMalformed body
  · rw [if_pos (isMalformed_iff.1 hbody), matches_literals]
    constructor
    · rintro rfl
      exact .malformed hbody
    · intro h
      cases h with
      | listed hgood => contradiction
      | malformed => rfl
  · rw [if_neg (mt isMalformed_iff.2 hbody), Concatenates.singleton_iff]
    have hset : ∀ c, (bracketItems body).any (SetItem.contains c) ≠
        (body.head? == some (.char '!')) ↔
        ((∃ item ∈ bracketItems body, item.contains c = true) ↔
          body.head? ≠ some (.char '!')) := by
      intro c
      rw [← List.any_eq_true, ← beq_eq_false_iff_ne (a := body.head?)]
      cases (bracketItems body).any (SetItem.contains c) <;>
        cases body.head? == some (.char '!') <;> decide
    constructor
    · rintro ⟨c, rfl, hc⟩
      exact .listed hbody ((hset c).1 hc)
    · intro h
      cases h with
      | listed _ hc => exact ⟨_, rfl, (hset _).2 hc⟩
      | malformed hbad => contradiction

/-- The tokens of a piece match the parts that the piece matches. -/
theorem Piece.matches_iff {piece : Piece} {p : Text} :
    Concatenates Token.Matches piece.tokens p ↔ piece.Matches p := by
  cases piece with
  | run t =>
    rw [tokens, matches_literals]
    constructor
    · rintro rfl
      exact .run
    · rintro ⟨⟩
      rfl
  | star =>
    rw [tokens, Concatenates.singleton_iff]
    constructor
    · exact .star
    · intro h
      cases h with
      | star hp => exact hp
  | any =>
    rw [tokens, Concatenates.singleton_iff]
    constructor
    · rintro ⟨c, rfl, hc⟩
      exact .any hc
    · intro h
      cases h with
      | any hc => exact ⟨_, rfl, hc⟩
  | deep =>
    rw [tokens, Concatenates.singleton_iff]
    constructor
    · rintro (rfl | ⟨u, rfl, hu⟩)
      · exact .none
      · exact .below hu
    · intro h
      cases h with
      | none => exact Or.inl rfl
      | below hu => exact Or.inr ⟨_, rfl, hu⟩
  | bracket body => exact ofBracket_matches_iff

/-! ## Reading a pattern -/

theorem endsInBackslash_cons (afterBackslash : Bool) (s : Sym) (t : Text) :
    endsInBackslash afterBackslash (s :: t) = endsInBackslash (s = backslash) t := by
  cases t <;> simp [endsInBackslash, List.getLast?_cons]

theorem unescapeRun_cons {s : Sym} {t : Text}
    (h : ∀ c rest, t = c :: rest → ¬(s = backslash ∧ isEscapable c = true)) :
    unescapeRun (s :: t) = s :: unescapeRun t := by
  cases t with
  | nil => rfl
  | cons c rest => rw [unescapeRun, if_neg (h c rest rfl)]

/-- A symbol of a run stands for itself, unless it is a backslash with something behind it. -/
theorem readFrom_of_inRun {afterBackslash : Bool} {s : Sym} {rest : Text}
    (hrun : inRun afterBackslash s = true) (hback : s = backslash → rest = []) :
    readFrom afterBackslash (s :: rest) = .literal s :: readFrom (s = backslash) rest := by
  rw [inRun, Bool.and_eq_true, decide_eq_true_eq] at hrun
  obtain ⟨hslash, hwild⟩ := hrun
  rw [readFrom.eq_4 afterBackslash s rest ?_ fun _ hs _ => hslash hs]
  · cases afterBackslash with
    | true => rfl
    | false =>
      simp only [Bool.false_or, Bool.and_eq_true, decide_eq_true_eq] at hwild
      obtain ⟨⟨hstar, hany⟩, hopen⟩ := hwild
      rw [if_neg Bool.false_ne_true, if_neg hstar, if_neg hany, if_neg hopen]
  · intro c rest' hs hrest
    rw [hback hs] at hrest
    cases hrest

theorem inRun_of_isEscapable {c : Sym} (h : isEscapable c = true) : inRun true c = true := by
  have hslash : c ≠ slash := by
    rintro rfl
    cases h
  simp [inRun, hslash]

/-- A symbol without a meaning in patterns. -/
theorem inRun_of_not_isEscapable {s : Sym} (hslash : s ≠ slash) (h : isEscapable s = false)
    (afterBackslash : Bool) : inRun afterBackslash s = true := by
  simp only [isEscapable, Bool.or_eq_false_iff, decide_eq_false_iff_not] at h
  simp [inRun, hslash, h]

theorem ne_backslash_of_not_isEscapable {s : Sym} (h : isEscapable s = false) : s ≠ backslash := by
  rintro rfl
  cases h

theorem readFrom_cons_of_not_isEscapable {s : Sym} (hslash : s ≠ slash)
    (h : isEscapable s = false) (afterBackslash : Bool) (t : Text) :
    readFrom afterBackslash (s :: t) = .literal s :: readFrom false t := by
  have hback := ne_backslash_of_not_isEscapable h
  rw [readFrom_of_inRun (inRun_of_not_isEscapable hslash h _) fun hs => absurd hs hback,
    decide_eq_false hback]

/-- The tokens of a pattern begin with the symbols of the run at its front. -/
theorem readFrom_takeRun (afterBackslash : Bool) (t : Text) : readFrom afterBackslash t =
    (unescapeRun (takeRun afterBackslash t).1).map .literal ++
      readFrom (endsInBackslash afterBackslash (takeRun afterBackslash t).1)
        (takeRun afterBackslash t).2 := by
  -- A backslash is read together with the symbol behind it, so the induction goes two steps.
  induction t using List.twoStepInduction generalizing afterBackslash with
  | nil => simp [takeRun, unescapeRun, endsInBackslash]
  | singleton s =>
    rw [takeRun]
    split
    · next h =>
      rw [readFrom_of_inRun h fun _ => rfl]
      simp [takeRun, unescapeRun, endsInBackslash]
    · simp [unescapeRun, endsInBackslash]
  | cons_cons s c rest ihtwo ihone =>
    rw [takeRun]
    split
    · next h =>
      simp only [endsInBackslash_cons]
      by_cases hpair : s = backslash ∧ isEscapable c = true
      · obtain ⟨rfl, hc⟩ := hpair
        have htake : takeRun (decide (backslash = backslash)) (c :: rest) =
            (c :: (takeRun (c = backslash) rest).1, (takeRun (c = backslash) rest).2) := by
          rw [takeRun, decide_eq_true rfl, if_pos (inRun_of_isEscapable hc)]
        rw [htake, readFrom, if_pos hc, ihtwo, unescapeRun, if_pos ⟨rfl, hc⟩, endsInBackslash_cons]
        rfl
      · have hrun : unescapeRun (s :: (takeRun (s = backslash) (c :: rest)).1) =
            s :: unescapeRun (takeRun (s = backslash) (c :: rest)).1 := by
          apply unescapeRun_cons
          intro c' rest' hcons
          rw [takeRun] at hcons
          split at hcons
          · rwa [← (List.cons.inj hcons).1]
          · cases hcons
        have hread : readFrom afterBackslash (s :: c :: rest) =
            .literal s :: readFrom (s = backslash) (c :: rest) := by
          by_cases hs : s = backslash
          · have hc : ¬isEscapable c = true := fun hc => hpair ⟨hs, hc⟩
            subst hs
            rw [readFrom, if_neg hc]
            rfl
          · exact readFrom_of_inRun h fun heq => absurd heq hs
        rw [hrun, hread, ihone]
        rfl
    · simp [unescapeRun, endsInBackslash]

/-- The first tokens of a pattern are those of its first piece. -/
theorem readFrom_cons (afterBackslash : Bool) (s : Sym) (rest : Text) :
    readFrom afterBackslash (s :: rest) = (first afterBackslash s rest).1.tokens ++
      readFrom (endsInBackslash false (first afterBackslash s rest).1.text)
        (first afterBackslash s rest).2 := by
  unfold first
  split
  · next hrun =>
    have hends : endsInBackslash afterBackslash (takeRun afterBackslash (s :: rest)).1 =
        endsInBackslash false (takeRun afterBackslash (s :: rest)).1 := by
      rw [takeRun, if_pos hrun, endsInBackslash_cons, endsInBackslash_cons]
    rw [readFrom_takeRun, hends]
    rfl
  · next hrun =>
    split
    · next hslash =>
      subst hslash
      split
      · rw [readFrom]
        rfl
      · next hdeep =>
        rw [readFrom.eq_4 _ _ _ (fun _ _ hs _ => by cases hs) fun rest' _ hrest =>
          hdeep rest' hrest]
        cases afterBackslash <;> rfl
    · next hslash =>
      have hback : s ≠ backslash := by
        rintro rfl
        exact hrun (by cases afterBackslash <;> rfl)
      obtain rfl : afterBackslash = false := by
        cases afterBackslash with
        | false => rfl
        | true => simp [inRun, hslash] at hrun
      rw [readFrom.eq_4 _ _ _ (fun _ _ hs _ => hback hs) fun _ hs _ => hslash hs,
        if_neg Bool.false_ne_true]
      split
      · rfl
      · next hstar =>
        split
        · rfl
        · next hany =>
          obtain rfl := eq_open_of_inRun hrun hslash hstar hany
          rw [if_pos rfl]
          cases bracket? rest with
          | some found =>
            have hends : endsInBackslash false (Piece.bracket found.1).text = false := by
              rw [Piece.text, endsInBackslash, List.getLast?_concat]
              rfl
            simp only [Piece.tokens, hends]
          | none => rfl

theorem readFrom_eq (afterBackslash : Bool) (t : Text) :
    readFrom afterBackslash t = (pieces afterBackslash t).flatMap Piece.tokens := by
  fun_induction pieces afterBackslash t with
  | case1 => rw [readFrom]; rfl
  | case2 afterBackslash s rest ih => rw [readFrom_cons, List.flatMap_cons, ih]

theorem read_deep (rest : Text) :
    read (.char '/' :: .char '*' :: .char '*' :: rest) = .deep :: read rest := by
  rw [read, readFrom]
  rfl

/-- A slash that begins no `/**` stands for itself. -/
theorem read_slash_cons {rest : Text} (h : ∀ after, rest ≠ .char '*' :: .char '*' :: after) :
    read (slash :: rest) = .literal slash :: read rest := by
  rw [read, readFrom.eq_4 _ _ _ (fun _ _ hs _ => by cases hs) fun after _ hrest => h after hrest]
  rfl

/-- **The language of a glob.** The glob of a pattern accepts the texts that the pattern
describes. -/
theorem accepts_read_iff {pattern t : Text} :
    (read pattern).accepts t = true ↔ Describes pattern t := by
  rw [read, readFrom_eq, accepts_iff, Describes]
  generalize pieces false pattern = l
  induction l generalizing t with
  | nil => simp [Concatenates.nil_iff]
  | cons piece l ih =>
    simp only [List.flatMap_cons, Concatenates.append_iff, Concatenates.cons_iff, ih,
      Piece.matches_iff]

end Glob

end TreeSieve
