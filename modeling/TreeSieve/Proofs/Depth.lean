import TreeSieve.Proofs.RuleRegex
import TreeSieve.Proofs.Segments

/-!
# Rules at any depth

A line without a slash, except for one at its end, makes a rule whose pattern begins with `/**`
(`Rule.pattern_of_split`). This stands for any directories on the way to a match, so a rule that
matches a name in its directory matches the name further below (`Rule.accepts_deeper`). The way may
only not lead through a directory that has a line feed in its name, which `/**` does not match.
-/

namespace TreeSieve

open TreeSieve.Sym

namespace Rule

/-! ## The text of a line -/

theorem trimReversed_sublist (t : Text) : (trimReversed t).Sublist t := by
  fun_induction trimReversed t with
  | case1 => exact .slnil
  | case2 => exact List.nil_sublist _
  | case3 | case5 => exact List.Sublist.refl _
  | case4 _ _ _ _ ih => exact ih.cons _

theorem unescapeBlanks_sublist (t : Text) : (unescapeBlanks t).Sublist t := by
  fun_induction unescapeBlanks t with
  | case1 | case2 => exact List.Sublist.refl _
  | case3 _ _ _ _ ih => exact ih.cons _
  | case4 _ _ _ _ ih => exact ih.cons_cons _

theorem trimEnd_sublist (t : Text) : (trimEnd t).Sublist t := by
  have h := (trimReversed_sublist t.reverse).reverse
  rwa [List.reverse_reverse] at h

theorem unescape_sublist (t : Text) : (unescape t).Sublist t := by
  unfold unescape
  split
  · exact (unescapeBlanks_sublist _).cons _
  · exact unescapeBlanks_sublist t

/-- The text of a line is what remains when symbols are taken out of it. -/
theorem split_sublist (line : Text) : (split line).2.Sublist line := by
  have hdrop := List.dropWhile_sublist (l := line) Sym.isBlank
  have htext : ∀ t : Text, (unescape (trimEnd t)).Sublist t :=
    fun t => (unescape_sublist _).trans (trimEnd_sublist t)
  unfold split
  split
  · next t heq =>
    rw [heq] at hdrop
    exact (htext t).trans ((List.sublist_cons_self _ t).trans hdrop)
  · exact (htext _).trans hdrop

/-- A text is a single slash if it begins with one and has none before its end. -/
theorem eq_slash_of_sublist {t line : Text} (hline : slash ∉ line.dropLast)
    (hsub : t.Sublist line) (hhead : t.head? = some slash) : t = [slash] := by
  obtain ⟨rest, rfl⟩ := List.head?_eq_some_iff.1 hhead
  have hne : line ≠ [] := by
    rintro rfl
    cases hsub
  rw [← List.dropLast_append_getLast hne, List.sublist_append_iff] at hsub
  obtain ⟨front, back, heq, hfront, hback⟩ := hsub
  cases front with
  | nil =>
    rw [List.nil_append] at heq
    have hlength := hback.length_le
    rw [← heq, List.length_cons, List.length_singleton] at hlength
    rw [List.length_eq_zero_iff.1 (by omega : rest.length = 0)]
  | cons s front =>
    obtain ⟨rfl, -⟩ := List.cons.inj heq
    exact absurd (hfront.subset List.mem_cons_self) hline

/-- The pattern of a line without a slash before its end is a slash or begins with `/**`. -/
theorem pattern_of_split {line : Text} (hline : slash ∉ line.dropLast) :
    pattern (split line).2 = [slash] ∨ ∃ rest, pattern (split line).2 = anywhere ++ rest := by
  by_cases hhead : (split line).2.head? = some slash
  · rw [eq_slash_of_sublist hline (split_sublist line) hhead]
    exact Or.inl rfl
  · right
    rw [pattern, if_neg hhead]
    split
    · exact ⟨_, rfl⟩
    · exact ⟨_, List.append_assoc ..⟩

end Rule

namespace Glob

/-! ## Directories on the way -/

theorem deep_append {p q : Text} (hp : Piece.deep.Matches p) (hq : Piece.deep.Matches q) :
    Piece.deep.Matches (p ++ q) := by
  cases hp with
  | none => exact hq
  | @below u hu =>
    cases hq with
    | none =>
      rw [List.append_nil]
      exact .below hu
    | @below v hv =>
      refine .below (u := u ++ slash :: v) ?_
      simp [hu, hv]

/-- `/**` matches the way through directories without line feeds in their names. -/
theorem deep_directories {names : List Text} (h : ∀ n ∈ names, lineFeed ∉ n) :
    Piece.deep.Matches (names.flatMap (slash :: ·)) := by
  induction names with
  | nil => exact .none
  | cons n names ih =>
    obtain ⟨hn, hnames⟩ := List.forall_mem_cons.1 h
    exact deep_append (.below hn) (ih hnames)

/-- What a pattern with `/**` in front describes, it describes behind more directories, too. -/
theorem describes_deeper {rest t : Text} (h : Describes (Rule.anywhere ++ rest) t)
    {names : List Text} (hnames : ∀ n ∈ names, lineFeed ∉ n) :
    Describes (Rule.anywhere ++ rest) (names.flatMap (slash :: ·) ++ t) := by
  rw [Describes, pieces_anywhere, Concatenates.cons_iff] at h ⊢
  obtain ⟨p, q, rfl, hp, hq⟩ := h
  exact ⟨_, q, (List.append_assoc ..).symm, deep_append (deep_directories hnames) hp, hq⟩

theorem describes_slash_iff {t : Text} : Describes [slash] t ↔ t = [slash] := by
  rw [Describes, pieces_single_slash, Concatenates.singleton_iff]
  constructor
  · rintro ⟨⟩
    rfl
  · rintro rfl
    exact .run

end Glob

namespace Rule

/-- What a rule of any depth matches, it matches below more directories. -/
theorem accepts_below_directories {directory line : Text} {r : Rule}
    (h : ofLine? directory line = some r) (hline : slash ∉ line.dropLast) {names : List Text}
    (hnames : ∀ n ∈ names, lineFeed ∉ n) {t : Text} (ht : t ≠ [slash])
    (haccepts : r.accepts (Path.trimmed directory ++ t) = true) :
    r.accepts (Path.trimmed directory ++ (names.flatMap (slash :: ·) ++ t)) = true := by
  rw [accepts_iff_describes h] at haccepts ⊢
  obtain ⟨u, hu, hdescribes⟩ := haccepts
  obtain rfl := List.append_cancel_left hu
  refine ⟨_, rfl, ?_⟩
  rcases pattern_of_split hline with hpattern | ⟨rest, hpattern⟩
  · rw [hpattern, Glob.describes_slash_iff] at hdescribes
    exact absurd hdescribes ht
  · rw [hpattern] at hdescribes ⊢
    exact Glob.describes_deeper hdescribes hnames

/-- **Any depth.** A line without a slash before its end makes a rule that matches a name further
below if it matches the name in its directory, be it the name of a file or of a directory. No
directory on the way may have a line feed in its name. -/
theorem accepts_deeper {directory line : Text} {r : Rule} (h : ofLine? directory line = some r)
    (hline : slash ∉ line.dropLast) {names : List Text} (hnames : ∀ n ∈ names, lineFeed ∉ n)
    {x : Text} (hx : x ≠ []) :
    (r.accepts (Path.trimmed directory ++ slash :: x) = true →
      r.accepts (Path.trimmed directory ++ (names ++ [x]).flatMap (slash :: ·)) = true) ∧
    (r.accepts (Path.trimmed directory ++ slash :: x ++ [slash]) = true →
      r.accepts (Path.trimmed directory ++ (names ++ [x]).flatMap (slash :: ·) ++ [slash]) =
        true) := by
  constructor
  · intro haccepts
    have hdeeper := accepts_below_directories h hline hnames (t := slash :: x) (by simpa using hx)
      haccepts
    simpa using hdeeper
  · intro haccepts
    have hdeeper := accepts_below_directories h hline hnames (t := slash :: x ++ [slash])
      (by simp) (by simpa using haccepts)
    simpa using hdeeper

/-- The rule `[!a]*/` of `/p` matches the directory `b` in it and two levels further below. -/
theorem accepts_deeper_two_levels :
    ofLine? "/p" "[!a]*/" = some ⟨"[!a]*/", "/p", true, false, [.deep, .literal slash,
        .set true [.single 'a'], .star, .literal slash]⟩ ∧
      accepts ⟨"[!a]*/", "/p", true, false, [.deep, .literal slash, .set true [.single 'a'], .star,
        .literal slash]⟩ "/p/a/x y/b/" = true := by
  have hline : ofLine? "/p" "[!a]*/" = some ⟨"[!a]*/", "/p", true, false, [.deep, .literal slash,
      .set true [.single 'a'], .star, .literal slash]⟩ := by cbv
  have hnames : ∀ n ∈ (["a", "x y"] : List Text), lineFeed ∉ n := by decide
  exact ⟨hline, (accepts_deeper hline (by decide) hnames (x := "b") (by decide)).2 (by cbv)⟩

/-- **A line feed on the way**: the rule `x` of `/r` matches `/r/x`, but not the same name in the
directory that is called `a`, line feed, `b`. -/
theorem line_feed_not_passed : ∃ r, ofLine? "/r" "x" = some r ∧ r.accepts "/r/x" = true ∧
    r.accepts "/r/a\nb/x" = false :=
  ⟨⟨"x", "/r", false, false, [.deep, .literal slash, .literal 'x', .deep]⟩, by cbv, by cbv, by cbv⟩

end Rule

end TreeSieve
