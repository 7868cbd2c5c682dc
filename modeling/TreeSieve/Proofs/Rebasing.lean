import TreeSieve.Proofs.LineText
import TreeSieve.Proofs.PathNames
import TreeSieve.Proofs.RuleRegex
import TreeSieve.Proofs.Segments

/-!
# Moving a line up to the parent

A line in a nested rule file can be written in the rule file of the parent directory, too: with the
name of the directory in front, and with `/**/` between them if the line has no slash there. Both
lines make the same rule (`Rule.written_ofLine?_nested`). In one of them the name is part of the
anchor, and in the other it is read as a part of the pattern. There it comes to the same literal
tokens if no symbol of it has a meaning in patterns, since the slash behind it ends whatever is
read before (`Glob.read_append_slash`).

The path of the directory is the one by which it is judged itself: the parent's path without slashes
at its end, a slash and the name. Joining the two gives the same path, except behind `//`.
-/

namespace TreeSieve

open TreeSieve.Sym

namespace Path

/-! ## The path of a nested directory -/

variable {name : Text} (hslash : slash ∉ name)

include hslash in
/-- The path of a directory below another one is its own anchor. -/
theorem trimmed_nested (hne : name ≠ []) (directory : Text) :
    trimmed (trimmed directory ++ slash :: name) = trimmed directory ++ slash :: name := by
  apply trimmed_of_getLast?
  rw [List.getLast?_append_of_ne_nil _ (List.cons_ne_nil _ _), List.getLast?_cons_of_ne_nil hne]
  exact fun h => hslash (List.mem_of_getLast? h)

include hslash in
/-- The name joined to the parent's path. Two slashes at the end of this would stay. -/
theorem join_eq_nested {directory : Text} (habs : isAbsolute directory = true)
    (hend : ¬[slash, slash] <:+ directory) :
    join directory name = trimmed directory ++ slash :: name := by
  have hrelative : isAbsolute name = false := by
    rw [isAbsolute, beq_eq_false_iff_ne]
    exact fun h => hslash (List.mem_of_head? h)
  have hdirectory : directory ≠ [] := by
    rintro rfl
    cases habs
  rw [join, hrelative]
  by_cases hlast : directory.getLast? = some slash
  · obtain ⟨front, rfl⟩ := List.getLast?_eq_some_iff.1 hlast
    have hfront : front.getLast? ≠ some slash := by
      intro h
      obtain ⟨front, rfl⟩ := List.getLast?_eq_some_iff.1 h
      exact hend ⟨front, (List.append_assoc front [slash] [slash]).symm⟩
    have htrimmed : trimmed (front ++ [slash]) = front :=
      (List.rdropWhile_concat_pos _ front slash (by decide)).trans (trimmed_of_getLast? hfront)
    rw [htrimmed]
    simp
  · simp [trimmed_of_getLast? hlast, hdirectory, hlast]

end Path

namespace Glob

/-! ## Names in patterns -/

/-- Symbols without a meaning in patterns stand for themselves. -/
theorem readFrom_of_not_isEscapable {t : Text} (ht : ∀ s ∈ t, s ≠ slash ∧ isEscapable s = false)
    (afterBackslash : Bool) : readFrom afterBackslash t = t.map .literal := by
  induction t generalizing afterBackslash with
  | nil => rw [readFrom, List.map_nil]
  | cons s t ih =>
    obtain ⟨⟨hslash, hs⟩, ht⟩ := List.forall_mem_cons.1 ht
    rw [readFrom_cons_of_not_isEscapable hslash hs, ih ht, List.map_cons]

variable {name : Text} (hname : ∀ s ∈ name, s ≠ slash ∧ isEscapable s = false)

include hname in
/-- A name in front of a pattern is read apart from it. -/
theorem read_slash_name_append (rest : Text) :
    read (slash :: name ++ slash :: rest) =
      (slash :: name).map .literal ++ read (slash :: rest) := by
  have hstar : ∀ after, name ≠ .char '*' :: .char '*' :: after := by
    rintro after rfl
    exact absurd (hname _ List.mem_cons_self).2 (by decide)
  rw [read_append_slash, read_slash_cons hstar, read, readFrom_of_not_isEscapable hname,
    List.map_cons]

end Glob

namespace Rule

/-- What a rule is apart from its source: the text of its regular expression, and its kind. -/
def written (r : Rule) : Text × Bool × Bool := (r.regex, r.negated, r.directoryOnly)

/-- It makes no difference how the tokens are divided into the anchor and the glob. -/
theorem written_congr {r r' : Rule} (htokens : r.tokens = r'.tokens)
    (hnegated : r.negated = r'.negated) (hdirectory : r.directoryOnly = r'.directoryOnly) :
    r.written = r'.written := by
  rw [written, written, regex_eq, regex_eq, htokens, hnegated, hdirectory]

/-! ## Nested lines -/

section Nested

variable {name : Text} (hne : name ≠ [])
  (hname : ∀ s ∈ name, s ≠ slash ∧ Glob.isEscapable s = false)

include hne hname in
/-- Two lines make the same rule if the text of one is that of the other with the name and perhaps
more in front, and so is its pattern. -/
theorem written_of_split {line line' t u : Text} {negated : Bool}
    (hcomment : isComment line = false) (hcomment' : isComment line' = false) (ht : t ≠ [])
    (hsplit : split line = (negated, t)) (hsplit' : split line' = (negated, u ++ t))
    (hpattern : pattern (u ++ t) = slash :: name ++ pattern t) (directory : Text) :
    (ofLine? (Path.trimmed directory ++ slash :: name) line).map written =
      (ofLine? directory line').map written := by
  rw [ofLine?_of_split hcomment hsplit ht,
    ofLine?_of_split hcomment' hsplit' (List.append_ne_nil_of_right_ne_nil u ht), Option.map_some,
    Option.map_some]
  refine congrArg some (written_congr ?_ rfl (endsInSlash_append u ht).symm)
  obtain ⟨rest, hrest⟩ := exists_pattern_eq_cons t
  simp only [tokens]
  rw [Path.trimmed_nested (fun h => (hname _ h).1 rfl) hne, hpattern, hrest,
    Glob.read_slash_name_append hname, List.map_append, List.append_assoc]

include hne hname in
/-- A line with a slash in front needs no more than the name before it. -/
theorem written_ofLine?_slash {line : Text} (hline : line.head? = some slash) (directory : Text) :
    (ofLine? (Path.trimmed directory ++ slash :: name) line).map written =
      (ofLine? directory (slash :: name ++ line)).map written := by
  obtain ⟨t, rfl⟩ := List.head?_eq_some_iff.1 hline
  have hback : backslash ∉ name := fun h =>
    Glob.ne_backslash_of_not_isEscapable (hname _ h).2 rfl
  obtain ⟨w, hsplit, hsplit'⟩ :=
    exists_split_append (c := slash) (by decide) (by decide) (by decide) t
  exact written_of_split hne hname (isComment_cons (by decide) (by decide) _)
    (isComment_cons (by decide) (by decide) _) (List.cons_ne_nil _ _) hsplit (hsplit' name hback)
    (pattern_slash_append name rfl) directory

include hne hname in
/-- Before a line that begins like a name there must be `/**/`, too. -/
theorem written_ofLine?_anywhere {c : Sym} (hblank : c.isBlank = false)
    (hc : c ∉ Text.ofChars ['/', '!', '#', '\\']) (t directory : Text) :
    (ofLine? (Path.trimmed directory ++ slash :: name) (c :: t)).map written =
      (ofLine? directory (slash :: name ++ anywhere ++ slash :: c :: t)).map written := by
  simp only [Text.ofChars, List.map_cons, List.map_nil, List.mem_cons, List.not_mem_nil, or_false,
    not_or] at hc
  obtain ⟨hslash, hmark, hhash, hback⟩ := hc
  have hbehind : backslash ∉ name ++ anywhere ++ [slash] := by
    intro h
    rcases List.mem_append.1 h with h | h
    · rcases List.mem_append.1 h with h | h
      · exact Glob.ne_backslash_of_not_isEscapable (hname _ h).2 rfl
      · exact absurd h (by decide)
    · exact absurd h (by decide)
  obtain ⟨w, hsplit, hsplit'⟩ := exists_split_append hblank hmark hback t
  have hline : slash :: name ++ anywhere ++ slash :: c :: t =
      slash :: (name ++ anywhere ++ [slash]) ++ c :: t := by simp
  have hpattern : pattern (slash :: (name ++ anywhere ++ [slash]) ++ c :: w) =
      slash :: name ++ pattern (c :: w) := by
    rw [← pattern_anywhere (t := c :: w) (mt Option.some.inj hslash), ← pattern_slash_append]
    · simp
    · rfl
  rw [hline]
  exact written_of_split hne hname (isComment_cons hblank hhash t)
    (isComment_cons (by decide) (by decide) _) (List.cons_ne_nil _ _) hsplit (hsplit' _ hbehind)
    hpattern directory

include hne hname in
/-- **A line of a nested rule file is a line of the parent's.** With the name of the directory in
front, and with `/**/` between if the line has no slash there, it makes the same rule in the parent,
or none in both. -/
theorem written_ofLine?_nested (directory : Text) :
    (Path.isAbsolute directory = true → ¬[slash, slash] <:+ directory →
      Path.join directory name = Path.trimmed directory ++ slash :: name) ∧
    (∀ line : Text, line.head? = some slash →
      (ofLine? (Path.trimmed directory ++ slash :: name) line).map written =
        (ofLine? directory (slash :: name ++ line)).map written) ∧
    ∀ (c : Sym) (t : Text), c.isBlank = false → c ∉ Text.ofChars ['/', '!', '#', '\\'] →
      (ofLine? (Path.trimmed directory ++ slash :: name) (c :: t)).map written =
        (ofLine? directory (slash :: name ++ anywhere ++ slash :: c :: t)).map written :=
  ⟨Path.join_eq_nested fun h => (hname _ h).1 rfl,
    fun _ hline => written_ofLine?_slash hne hname hline directory,
    fun _ t hblank hc => written_ofLine?_anywhere hne hname hblank hc t directory⟩

end Nested

/-- Lines of a directory `a.b`, in its own rule file and in that of the root. -/
theorem written_ofLine?_nested_dotted :
    Path.join "/" "a.b" = "/a.b" ∧
    (ofLine? "/a.b" "/c*").map written = (ofLine? "/" "/a.b/c*").map written ∧
    (ofLine? "/" "/a.b/c*").map written =
      some (Text.ofString "/a\\.b/c[^/]*(/.*)?\\Z", false, false) ∧
    (ofLine? "/a.b" "c/ ").map written = (ofLine? "/" "/a.b/**/c/ ").map written ∧
    (ofLine? "/" "/a.b/**/c/ ").map written =
      some (Text.ofString "/a\\.b(/.*)?/c/\\Z", false, true) := by
  obtain ⟨hjoin, hslash, hanywhere⟩ :=
    written_ofLine?_nested (show ("a.b" : Text) ≠ [] by decide) (by decide) "/"
  exact ⟨hjoin (by decide) (by decide), hslash "/c*" (by decide), by cbv,
    hanywhere 'c' "/ " (by decide) (by decide), by cbv⟩

end Rule

end TreeSieve
