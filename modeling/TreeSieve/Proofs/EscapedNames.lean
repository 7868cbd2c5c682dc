import TreeSieve.Proofs.LineText
import TreeSieve.Proofs.RuleRegex
import TreeSieve.Proofs.Segments

/-!
# Lines that name one name

Every name has a line whose rule matches this name and no other one in the same directory. In it a
backslash stands before each symbol that has a meaning in patterns and before white space
(`Rule.escapedLine`), and these backslashes disappear at two times: those before white space when
the line is read, and the others when its pattern is.

The first backslash of a line disappears together with those before white space. So a line needs
one more in front if the name begins with a symbol that has a meaning in patterns, as it does for
`#` and `!`. A backslash at the front of a name is different: one of the two for it is lost, and the
other one stands before something that is literal anyway (`Glob.readFrom_backslash_escape`).
-/

namespace TreeSieve

open TreeSieve.Sym

/-- A text with a backslash before each symbol that passes a test. -/
def Text.escape (test : Sym → Bool) (t : Text) : Text :=
  t.flatMap fun s => if test s then [backslash, s] else [s]

namespace Text

theorem escape_cons_of_pos {test : Sym → Bool} {s : Sym} (h : test s = true) (t : Text) :
    Text.escape test (s :: t) = backslash :: s :: Text.escape test t := by
  simp [escape, h]

theorem escape_cons_of_neg {test : Sym → Bool} {s : Sym} (h : test s = false) (t : Text) :
    Text.escape test (s :: t) = s :: Text.escape test t := by
  simp [escape, h]

theorem escape_append (test : Sym → Bool) (t u : Text) :
    Text.escape test (t ++ u) = Text.escape test t ++ Text.escape test u :=
  List.flatMap_append

theorem mem_of_mem_escape {test : Sym → Bool} {s : Sym} {t : Text} (h : s ∈ Text.escape test t) :
    s = backslash ∨ s ∈ t := by
  obtain ⟨c, hc, hs⟩ := List.mem_flatMap.1 h
  split at hs
  · rcases List.mem_pair.1 hs with rfl | rfl
    · exact Or.inl rfl
    · exact Or.inr hc
  · rw [List.mem_singleton.1 hs]
    exact Or.inr hc

end Text

namespace Glob

/-! ## The pattern of a name -/

theorem readFrom_escape {t : Text} (ht : slash ∉ t) (afterBackslash : Bool) :
    readFrom afterBackslash (Text.escape isEscapable t) = t.map .literal := by
  induction t generalizing afterBackslash with
  | nil => simp [Text.escape, readFrom]
  | cons s t ih =>
    obtain ⟨hslash, ht⟩ := List.ne_and_not_mem_of_not_mem_cons ht
    cases hs : isEscapable s with
    | true => rw [Text.escape_cons_of_pos hs, readFrom, if_pos hs, ih ht, List.map_cons]
    | false =>
      rw [Text.escape_cons_of_neg hs, readFrom_cons_of_not_isEscapable hslash.symm hs, ih ht,
        List.map_cons]

/-- A backslash in front takes the next one as its own, and so on to the last one, which stands
before the same symbol as before. -/
theorem readFrom_backslash_escape {t : Text} (ht : slash ∉ t) (afterBackslash : Bool) :
    readFrom afterBackslash (backslash :: Text.escape isEscapable t) =
      (backslash :: t).map .literal := by
  induction t generalizing afterBackslash with
  | nil =>
    have hrun : inRun afterBackslash backslash = true := by cases afterBackslash <;> rfl
    rw [Text.escape, List.flatMap_nil, readFrom_of_inRun hrun fun _ => rfl, readFrom]
    rfl
  | cons s t ih =>
    obtain ⟨hslash, ht⟩ := List.ne_and_not_mem_of_not_mem_cons ht
    cases hs : isEscapable s with
    | true =>
      rw [Text.escape_cons_of_pos hs, readFrom, if_pos (by decide), decide_eq_true rfl]
      by_cases hback : s = backslash
      · rw [hback, ih ht]
        rfl
      · rw [readFrom_of_inRun (inRun_of_isEscapable hs) fun h => absurd h hback,
          readFrom_escape ht]
        rfl
    | false =>
      rw [Text.escape_cons_of_neg hs, readFrom, if_neg (by simp [hs]),
        readFrom_cons_of_not_isEscapable hslash.symm hs, readFrom_escape ht]
      rfl

/-- No backslash is lost at the front: the text of a name's line has no star there. -/
theorem head?_escape_ne {s c : Sym} (hc : isEscapable c = true) (hback : c ≠ backslash) (t : Text) :
    (Text.escape isEscapable (s :: t)).head? ≠ some c := by
  intro h
  cases hs : isEscapable s with
  | true =>
    rw [Text.escape_cons_of_pos hs] at h
    exact hback (Option.some.inj h).symm
  | false =>
    rw [Text.escape_cons_of_neg hs] at h
    rw [Option.some.inj h, hc] at hs
    cases hs

theorem read_around {t : Text} (ht : t.head? ≠ some (.char '*')) :
    read (Rule.anywhere ++ slash :: t ++ Rule.anywhere) =
      .deep :: .literal slash :: (read t ++ [.deep]) := by
  have hdeep : read Rule.anywhere = [.deep] := by
    rw [read_deep, read, readFrom]
  have hslash : read (slash :: t) = .literal slash :: read t := by
    apply read_slash_cons
    rintro after rfl
    exact ht rfl
  rw [List.append_assoc, List.cons_append, List.cons_append, List.cons_append, List.nil_append,
    read_deep, ← List.cons_append, read_append_slash, hslash, hdeep, List.cons_append]

/-- With `/**` around it, a name is found only where it stands right behind the first slash. -/
theorem accepts_name_iff {name m : Text} (hm : slash ∉ m) :
    accepts (.deep :: .literal slash :: (name.map .literal ++ [.deep])) (slash :: m) = true ↔
      m = name := by
  simp only [accepts_cons_iff, Token.Matches]
  constructor
  · rintro ⟨p, _, heq, hp, _, q, rfl, rfl, hq⟩
    obtain ⟨n, u, rfl, hn, hu⟩ := Concatenates.append_iff.1 (accepts_iff.1 hq)
    obtain rfl := matches_literals.1 hn
    rcases hp with rfl | ⟨v, rfl, -⟩
    · obtain ⟨-, rfl⟩ := List.cons.inj heq
      rcases Concatenates.singleton_iff.1 hu with rfl | ⟨u, rfl, -⟩
      · exact List.append_nil n
      · simp at hm
    · obtain ⟨-, rfl⟩ := List.cons.inj heq
      simp at hm
  · rintro rfl
    refine ⟨[], slash :: m, rfl, Or.inl rfl, [slash], m, rfl, rfl, accepts_iff.2 ?_⟩
    exact Concatenates.append_iff.2 ⟨m, [], (List.append_nil m).symm, matches_literals.2 rfl,
      Concatenates.singleton_iff.2 (Or.inl rfl)⟩

end Glob

namespace Rule

/-! ## The line of a name -/

/-- Whether a symbol needs a backslash in a line: it has a meaning in patterns, or is white
space. -/
def needsBackslash (s : Sym) : Bool := Glob.isEscapable s || s.isBlank

/-- The line for a name: a backslash before each symbol that needs one, and one more in front if the
name begins with one of the given symbols. -/
def escapedLine (opening name : Text) : Text :=
  (if name.head?.any opening.contains then [backslash] else []) ++ Text.escape needsBackslash name

/-- The symbols that need another backslash at the front of a line. -/
def guarded : Text := Text.ofChars ['#', '!', '[', '*', '?']

theorem not_isBlank_of_isEscapable {s : Sym} (h : Glob.isEscapable s = true) :
    s.isBlank = false := by
  simp only [Glob.isEscapable, Bool.or_eq_true, decide_eq_true_eq] at h
  rcases h with ((rfl | rfl) | rfl) | rfl <;> decide

theorem of_not_needsBackslash {s : Sym} (h : needsBackslash s = false) :
    Glob.isEscapable s = false ∧ s.isBlank = false := Bool.or_eq_false_iff.1 h

/-- White space at the end of the line is kept, since there is a backslash before it. -/
theorem trimEnd_escapedLine (opening name : Text) :
    trimEnd (escapedLine opening name) = escapedLine opening name := by
  rcases List.eq_nil_or_concat' name with rfl | ⟨front, s, rfl⟩
  · rfl
  · rw [escapedLine, Text.escape_append, ← List.append_assoc]
    generalize (if (front ++ [s]).head?.any opening.contains then [backslash] else []) ++
      Text.escape needsBackslash front = p
    cases hs : needsBackslash s with
    | true =>
      rw [Text.escape_cons_of_pos hs]
      exact trimEnd_concat_escaped p s
    | false =>
      rw [Text.escape_cons_of_neg hs]
      exact trimEnd_concat (of_not_needsBackslash hs).2 p

/-- Behind its first symbol a line never begins with white space, so only the backslashes before
white space are dropped. -/
theorem unescapeBlanks_cons_escape (s : Sym) (t : Text) :
    unescapeBlanks (s :: Text.escape needsBackslash t) = s :: Text.escape Glob.isEscapable t := by
  induction t generalizing s with
  | nil => rfl
  | cons c t ih =>
    cases hc : needsBackslash c with
    | true =>
      rw [Text.escape_cons_of_pos hc, unescapeBlanks_cons fun _ => by simp; decide]
      cases hglob : Glob.isEscapable c with
      | true =>
        have hblank := not_isBlank_of_isEscapable hglob
        rw [unescapeBlanks_cons fun _ b hb => by simp_all, ih, Text.escape_cons_of_pos hglob]
      | false =>
        have hblank : c.isBlank = true := by simpa [needsBackslash, hglob] using hc
        rw [unescapeBlanks, if_pos ⟨rfl, hblank⟩, ih, Text.escape_cons_of_neg hglob]
    | false =>
      obtain ⟨hglob, hblank⟩ := of_not_needsBackslash hc
      rw [Text.escape_cons_of_neg hc, unescapeBlanks_cons fun _ b hb => by simp_all, ih,
        Text.escape_cons_of_neg hglob]

theorem unescapeBlanks_escape (t : Text) :
    unescapeBlanks (Text.escape needsBackslash t) = Text.escape Glob.isEscapable t := by
  -- A symbol in front that stays makes no difference.
  have h := unescapeBlanks_cons_escape slash t
  rw [unescapeBlanks_cons fun hs => absurd hs (by decide)] at h
  exact (List.cons.inj h).2

/-- One of the two backslashes for a backslash at the front of the name is dropped with the line's
first backslash. -/
theorem unescape_escapedLine (s : Sym) (t : Text) :
    unescape (escapedLine guarded (s :: t)) =
      if s = backslash then backslash :: Text.escape Glob.isEscapable t
      else Text.escape Glob.isEscapable (s :: t) := by
  rw [escapedLine, List.head?_cons, Option.any_some]
  by_cases hguarded : guarded.contains s = true
  · have hne : s ≠ backslash := by
      rintro rfl
      exact absurd hguarded (by decide)
    rw [if_pos hguarded, if_neg hne]
    exact unescapeBlanks_escape (s :: t)
  · rw [if_neg hguarded, List.nil_append]
    have hglob : s ≠ backslash → Glob.isEscapable s = false := by
      intro hne
      have hmem : s ∉ guarded := fun h => hguarded (List.contains_iff_mem.2 h)
      simp_all [guarded, Text.ofChars, Glob.isEscapable]
    cases hs : needsBackslash s with
    | true =>
      rw [Text.escape_cons_of_pos hs]
      refine (unescapeBlanks_cons_escape s t).trans ?_
      split
      · next hback => rw [hback]
      · next hne => rw [Text.escape_cons_of_neg (hglob hne)]
    | false =>
      have hne : s ≠ backslash := by
        rintro rfl
        exact absurd hs (by decide)
      rw [Text.escape_cons_of_neg hs, unescape_cons hne, unescapeBlanks_cons_escape, if_neg hne,
        Text.escape_cons_of_neg (hglob hne)]

/-- The line of a name begins with no mark and no white space. -/
theorem exists_escapedLine_eq (s : Sym) (t : Text) : ∃ c rest,
    escapedLine guarded (s :: t) = c :: rest ∧ c.isBlank = false ∧ c ≠ .char '!' ∧
      c ≠ .char '#' := by
  have hback : ∀ rest : Text, ∃ c rest', backslash :: rest = c :: rest' ∧ c.isBlank = false ∧
      c ≠ .char '!' ∧ c ≠ .char '#' := fun rest => ⟨_, rest, rfl, by decide⟩
  rw [escapedLine, List.head?_cons, Option.any_some]
  by_cases hguarded : guarded.contains s = true
  · rw [if_pos hguarded]
    exact hback _
  · rw [if_neg hguarded, List.nil_append]
    cases hs : needsBackslash s with
    | true =>
      rw [Text.escape_cons_of_pos hs]
      exact hback _
    | false =>
      rw [Text.escape_cons_of_neg hs]
      refine ⟨s, _, rfl, (of_not_needsBackslash hs).2, ?_, ?_⟩
      · rintro rfl
        exact hguarded (by decide)
      · rintro rfl
        exact hguarded (by decide)

/-- The text of a name's line, as far as its rule goes by it. -/
theorem exists_split_escapedLine {name : Text} (hne : name ≠ []) (hname : slash ∉ name) :
    ∃ t, isComment (escapedLine guarded name) = false ∧
      split (escapedLine guarded name) = (false, t) ∧ slash ∉ t ∧ t.head? ≠ some (.char '*') ∧
      Glob.read t = name.map .literal := by
  obtain ⟨s, t, rfl⟩ := List.exists_cons_of_ne_nil hne
  obtain ⟨c, rest, hline, hblank, hmark, hhash⟩ := exists_escapedLine_eq s t
  have htrim := trimEnd_escapedLine guarded (s :: t)
  have htext := unescape_escapedLine s t
  obtain ⟨-, hrest⟩ := List.ne_and_not_mem_of_not_mem_cons hname
  rw [hline] at htrim htext ⊢
  refine ⟨_, isComment_cons hblank hhash rest, split_cons hblank hmark rest, ?_⟩
  rw [htrim, htext]
  split
  · next hs =>
    rw [hs]
    refine ⟨?_, mt Option.some.inj (by decide), Glob.readFrom_backslash_escape hrest false⟩
    intro h
    rcases List.mem_cons.1 h with h | h
    · cases h
    · exact (Text.mem_of_mem_escape h).elim (by decide) hrest
  · refine ⟨?_, Glob.head?_escape_ne (by decide) (by decide) t, Glob.readFrom_escape hname false⟩
    exact fun h => (Text.mem_of_mem_escape h).elim (by decide) hname

/-- A text without slashes may stand anywhere, and all that lies below matches, too. -/
theorem pattern_of_not_mem {t : Text} (ht : slash ∉ t) (hne : t ≠ []) :
    pattern t = anywhere ++ slash :: t ++ anywhere := by
  have hhead : t.head? ≠ some slash := fun h => ht (List.mem_of_head? h)
  have hends : endsInSlash (anywhere ++ slash :: t) = false :=
    (endsInSlash_append (anywhere ++ [slash]) hne).trans (endsInSlash_of_not_mem ht)
  rw [pattern, if_neg hhead, hends, if_neg Bool.false_ne_true]

/-- **Every name has a line of its own.** The line in which a backslash stands before every symbol
that needs one, and one more before a guarded symbol at the front, makes a rule that excludes. Of
the names in its directory it matches this one alone. -/
theorem accepts_escapedLine_iff {name : Text} (hne : name ≠ []) (hname : slash ∉ name)
    (directory : Text) : ∃ r, ofLine? directory (escapedLine guarded name) = some r ∧
      r.negated = false ∧ r.directoryOnly = false ∧
      ∀ m, slash ∉ m → (r.accepts (Path.trimmed directory ++ slash :: m) = true ↔ m = name) := by
  obtain ⟨t, hcomment, hsplit, hslash, hstar, hread⟩ := exists_split_escapedLine hne hname
  have ht : t ≠ [] := by
    rintro rfl
    exact hne (List.map_eq_nil_iff.1 (hread.symm.trans (by rw [Glob.read, Glob.readFrom])))
  have hglob : Glob.read (pattern t) =
      .deep :: .literal slash :: (name.map .literal ++ [.deep]) := by
    rw [pattern_of_not_mem hslash ht, Glob.read_around hstar, hread]
  refine ⟨_, ofLine?_of_split hcomment hsplit ht directory, rfl, ?_, fun m hm => ?_⟩
  · exact endsInSlash_of_not_mem hslash
  · rw [← Glob.accepts_name_iff hm, ← hglob, accepts_iff]
    constructor
    · rintro ⟨u, hu, haccepts⟩
      rwa [List.append_cancel_left hu]
    · intro haccepts
      exact ⟨_, rfl, haccepts⟩

/-- The line of a name with a star at the front, and two backslashes and a blank at the end. -/
theorem accepts_escapedLine_iff_star : escapedLine guarded "*a\\\\ " = "\\\\*a\\\\\\\\\\ " ∧
    ∃ r, ofLine? "/r" "\\\\*a\\\\\\\\\\ " = some r ∧ r.accepts "/r/*a\\\\ " = true ∧
      r.accepts "/r/xa\\\\ " = false := by
  have hline : escapedLine guarded "*a\\\\ " = "\\\\*a\\\\\\\\\\ " := by cbv
  obtain ⟨r, hr, -, -, haccepts⟩ :=
    accepts_escapedLine_iff (show ("*a\\\\ " : Text) ≠ [] by decide) (by decide) "/r"
  rw [hline] at hr
  refine ⟨hline, r, hr, (haccepts "*a\\\\ " (by decide)).2 rfl, ?_⟩
  rw [Bool.eq_false_iff]
  exact mt (haccepts "xa\\\\ " (by decide)).1 (by decide)

/-- **A star at the front needs two backslashes**: with one, the line of the name `*` is read like
the line `*`, and its rule matches every name. -/
theorem star_not_escaped : ∃ r,
    ofLine? "/r" (escapedLine (Text.ofChars ['#', '!']) "*") = some r ∧
      r.accepts (Path.trimmed "/r" ++ slash :: ("x" : Text)) = true :=
  ⟨⟨"\\*", "/r", false, false, [.deep, .literal slash, .star, .deep]⟩, by cbv, by cbv⟩

end Rule

end TreeSieve
