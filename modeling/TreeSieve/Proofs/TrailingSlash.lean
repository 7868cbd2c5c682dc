import TreeSieve.Proofs.Below
import TreeSieve.Proofs.LineText
import TreeSieve.Proofs.RuleRegex
import TreeSieve.Proofs.Segments

/-!
# The slash at the end of a directory

A directory is judged by its path with a slash behind it, and a file by its path alone. A rule that
is only for directories demands the slash. The pattern of any other rule ends in `/**`, which takes
the slash along, so such a rule matches a directory wherever it would match a file of the same name.

The converse can fail, because the slash behind the path is a symbol like any other. A `?` matches
it, a set can have it as a member, and a slash in the pattern is the same if only `*` and `/**` come
behind. Nothing else in a pattern can match it (`Glob.describes_concat_slash_iff`), and so a rule
that does not end in one of these three tells no directory from a file
(`Rule.accepts_directory_iff`).
-/

namespace TreeSieve

open TreeSieve.Sym

/-- A text with a symbol behind it is cut in front of the symbol, at the latest, or at its end. -/
theorem eq_nil_or_concat_of_eq {t p q : Text} {s : Sym} (h : t ++ [s] = p ++ q) :
    q = [] ∨ ∃ q', q = q' ++ [s] ∧ t = p ++ q' := by
  rcases List.eq_nil_or_concat' q with rfl | ⟨q', s', rfl⟩
  · exact Or.inl rfl
  · rw [← List.append_assoc] at h
    obtain ⟨ht, hs⟩ := List.append_inj' h rfl
    exact Or.inr ⟨q', by rw [hs], ht⟩

namespace Glob

/-! ## Pieces that match a slash -/

/-- A piece that matches a slash but not nothing, as `/**` does. -/
inductive Piece.TakesSlash : Piece → Prop
  | any : TakesSlash .any
  | bracket {body : Text} (h : (Piece.bracket body).Matches [slash]) : TakesSlash (.bracket body)
  | written : TakesSlash (.run [slash])

/-- The slash behind a text is matched by one piece of a pattern. What stands before the piece
describes the text, and there is nothing behind it but wildcards that can do without anything. -/
def SlashTaken (pattern t : Text) : Prop :=
  ∃ before piece after, pieces false pattern = before ++ piece :: after ∧
    Concatenates Piece.Matches before t ∧ piece.TakesSlash ∧ ∀ p ∈ after, p = .star ∨ p = .deep

theorem Piece.TakesSlash.matches {piece : Piece} (h : piece.TakesSlash) :
    piece.Matches [slash] := by
  cases h with
  | any => exact .any (by decide)
  | bracket h => exact h
  | written => exact .run

/-- Only `*` and `/**` can do without anything. -/
theorem Piece.eq_of_matches_nil {piece : Piece} (hproper : piece.IsProper)
    (h : piece.Matches []) : piece = .star ∨ piece = .deep := by
  generalize ht : ([] : Text) = t at h
  cases h with
  | listed | malformed | below | any => cases ht
  | none => exact Or.inr rfl
  | star => exact Or.inl rfl
  | @run t =>
    rcases hproper with rfl | ⟨-, hne⟩
    · cases ht
    · exact absurd ht.symm (unescapeRun_ne_nil hne)

/-- A piece that matches a text with a slash at its end matches the slash alone, or it is a `/**`
that matches the text without it. -/
theorem Piece.matches_concat_slash {piece : Piece} (hproper : piece.IsProper) {t : Text}
    (h : piece.Matches (t ++ [slash])) :
    piece.TakesSlash ∧ t = [] ∨ piece = .deep ∧ piece.Matches t := by
  generalize ht : t ++ [slash] = u at h
  have hlast : u.getLast? = some slash := by rw [← ht, List.getLast?_concat]
  cases h with
  | @listed body c hbody hc =>
    obtain ⟨rfl, hslash⟩ := List.append_eq_singleton_iff.1 ht |>.resolve_right (by simp)
    obtain rfl := (List.cons.inj hslash).1
    exact Or.inl ⟨.bracket (.listed hbody hc), rfl⟩
  | malformed =>
    rw [List.getLast?_concat] at hlast
    cases hlast
  | none => simp at ht
  | @below u hu =>
    refine Or.inr ⟨rfl, ?_⟩
    cases t with
    | nil => exact .none
    | cons s t =>
      obtain ⟨rfl, rfl⟩ := List.cons.inj ht
      exact .below fun hmem => hu (List.mem_append_left _ hmem)
  | star hp => exact absurd (List.mem_of_getLast? hlast) hp
  | @any c hc =>
    obtain ⟨rfl, -⟩ := List.append_eq_singleton_iff.1 ht |>.resolve_right (by simp)
    exact Or.inl ⟨.any, rfl⟩
  | @run run =>
    have hmem := mem_of_mem_unescapeRun (List.mem_of_getLast? hlast)
    rcases hproper with rfl | ⟨hslash, -⟩
    · obtain ⟨rfl, -⟩ := List.append_eq_singleton_iff.1 ht |>.resolve_right (by simp)
      exact Or.inl ⟨.written, rfl⟩
    · exact absurd hmem hslash

/-- The induction goes from the last piece to the first. A piece that matches nothing leaves the
slash to those before it. -/
theorem concatenates_of_concat_slash {l : List Piece} (hl : ∀ piece ∈ l, piece.IsProper) {t : Text}
    (h : Concatenates Piece.Matches l (t ++ [slash])) :
    Concatenates Piece.Matches l t ∨
      ∃ before piece after, l = before ++ piece :: after ∧ Concatenates Piece.Matches before t ∧
        piece.TakesSlash ∧ ∀ p ∈ after, p = .star ∨ p = .deep := by
  induction l using List.reverseRecOn with
  | nil => simp [Concatenates.nil_iff] at h
  | append_singleton l piece ih =>
    have hproper := hl piece (by simp)
    obtain ⟨p, q, hpq, hp, hq⟩ := Concatenates.append_iff.1 h
    rw [Concatenates.singleton_iff] at hq
    rcases eq_nil_or_concat_of_eq hpq with rfl | ⟨q, rfl, rfl⟩
    · rw [List.append_nil] at hpq
      subst hpq
      rcases ih (fun p hp => hl p (List.mem_append_left _ hp)) hp with
        hall | ⟨before, taker, after, rfl, hbefore, htaker, hafter⟩
      · refine Or.inl (Concatenates.append_iff.2 ⟨t, [], (List.append_nil t).symm, hall, ?_⟩)
        exact Concatenates.singleton_iff.2 hq
      · refine Or.inr ⟨before, taker, after ++ [piece], by simp, hbefore, htaker, ?_⟩
        intro p hp
        rcases List.mem_append.1 hp with hp | hp
        · exact hafter p hp
        · rw [List.mem_singleton.1 hp]
          exact Piece.eq_of_matches_nil hproper hq
    · rcases Piece.matches_concat_slash hproper hq with ⟨htaker, rfl⟩ | ⟨rfl, hdeep⟩
      · exact Or.inr ⟨l, piece, [], rfl, by rwa [List.append_nil], htaker, by simp⟩
      · exact Or.inl (Concatenates.append_iff.2 ⟨p, q, rfl, hp, Concatenates.singleton_iff.2 hdeep⟩)

/-! ## Patterns that match a slash -/

/-- A pattern with `/**` at its end describes a text with a slash behind it if it describes the
text, or if something else in it matches the slash. -/
theorem describes_concat_slash_iff (front t : Text) :
    Describes (front ++ Rule.anywhere) (t ++ [slash]) ↔
      Describes (front ++ Rule.anywhere) t ∨ SlashTaken (front ++ Rule.anywhere) t := by
  constructor
  · exact concatenates_of_concat_slash fun piece => isProper_of_mem_pieces
  · rintro (h | ⟨before, piece, after, hpieces, hbefore, htakes, hafter⟩)
    · rw [Describes, pieces_append_anywhere, Concatenates.append_iff] at h ⊢
      obtain ⟨p, q, rfl, hp, hq⟩ := h
      refine ⟨p, q ++ [slash], List.append_assoc .., hp, ?_⟩
      rw [Concatenates.singleton_iff] at hq ⊢
      cases hq with
      | none => exact .below List.not_mem_nil
      | @below u hu => exact .below (u := u ++ [slash]) (by simpa using hu)
    · rw [Describes, hpieces, Concatenates.append_iff]
      refine ⟨t, [slash], rfl, hbefore, ?_⟩
      have hnothing : Concatenates Piece.Matches after [] := by
        clear hpieces
        induction after with
        | nil => exact .nil
        | cons p after ih =>
          obtain ⟨hp, hafter⟩ := List.forall_mem_cons.1 hafter
          refine Concatenates.cons_iff.2 ⟨[], [], rfl, ?_, ih hafter⟩
          rcases hp with rfl | rfl
          · exact .star List.not_mem_nil
          · exact .none
      exact Concatenates.cons_iff.2 ⟨[slash], [], rfl, htakes.matches, hnothing⟩

/-- A pattern with a slash at its end describes only texts that end in one. -/
theorem getLast?_of_describes {front t : Text} (h : Describes (front ++ [slash]) t) :
    t.getLast? = some slash := by
  rw [Describes, pieces_append_slash, pieces_single_slash, Concatenates.append_iff] at h
  obtain ⟨p, q, rfl, -, hq⟩ := h
  rw [Concatenates.singleton_iff] at hq
  cases hq with
  | run => exact List.getLast?_concat ..

end Glob

namespace Rule

/-- What a rule takes from the text of its line. -/
theorem text_of_ofLine? {directory line : Text} {r : Rule} (h : ofLine? directory line = some r) :
    (split line).2 ≠ [] ∧ r.directoryOnly = endsInSlash (split line).2 := by
  rw [ofLine?] at h
  split at h
  · cases h
  · split at h
    · cases h
    · next hne hsplit =>
      cases h
      rw [hsplit]
      exact ⟨hne, rfl⟩

/-- The pattern of a text ends in a slash or in `/**`. -/
theorem exists_pattern_eq {t : Text} (ht : t ≠ []) :
    ∃ front, pattern t = front ++ if endsInSlash t then [slash] else anywhere := by
  have hends : endsInSlash (if t.head? = some slash then t else anywhere ++ slash :: t) =
      endsInSlash t := by
    split
    · rfl
    · exact endsInSlash_append (anywhere ++ [slash]) ht
  rw [pattern, hends]
  by_cases hslash : endsInSlash t = true
  · rw [if_pos hslash, if_pos hslash]
    rw [← hends, endsInSlash, beq_iff_eq] at hslash
    exact List.getLast?_eq_some_iff.1 hslash
  · rw [if_neg hslash, if_neg hslash]
    exact ⟨_, rfl⟩

/-- **Directories and files of one name.** A rule that is only for directories matches no path
without a slash at its end. Any other rule matches a path with a slash behind it exactly if it
matches the path, or if what follows the anchor is described by a part of the pattern behind which
one `?`, set or slash matches the slash and only `*` and `/**` remain. -/
theorem accepts_directory_iff {directory line : Text} {r : Rule}
    (h : ofLine? directory line = some r) :
    (r.directoryOnly = true → ∀ path, r.accepts path = true → path.getLast? = some slash) ∧
      (r.directoryOnly = false → ∀ path, r.accepts (path ++ [slash]) = true ↔
        r.accepts path = true ∨ ∃ t, path = Path.trimmed directory ++ t ∧
          Glob.SlashTaken (pattern (split line).2) t) := by
  obtain ⟨hne, hdirectory⟩ := text_of_ofLine? h
  obtain ⟨front, hpattern⟩ := exists_pattern_eq hne
  simp only [accepts_iff_describes h, hdirectory, hpattern]
  refine ⟨fun hends => ?_, fun hends path => ?_⟩
  · rw [if_pos hends]
    rintro _ ⟨t, rfl, ht⟩
    have hlast := Glob.getLast?_of_describes ht
    rwa [List.getLast?_append_of_ne_nil]
    rintro rfl
    cases hlast
  · rw [if_neg (by simp [hends])]
    constructor
    · rintro ⟨t, hpath, ht⟩
      rcases eq_nil_or_concat_of_eq hpath with rfl | ⟨t, rfl, rfl⟩
      -- The anchor does not end in a slash.
      · rw [List.append_nil] at hpath
        have hlast := Path.getLast?_trimmed directory
        rw [← hpath, List.getLast?_concat] at hlast
        exact absurd rfl hlast
      · rcases (Glob.describes_concat_slash_iff front t).1 ht with ht | ht
        · exact Or.inl ⟨t, rfl, ht⟩
        · exact Or.inr ⟨t, rfl, ht⟩
    · have hconcat : ∀ t, Glob.Describes (front ++ anywhere) (t ++ [slash]) →
          ∃ u, Path.trimmed directory ++ t ++ [slash] = Path.trimmed directory ++ u ∧
            Glob.Describes (front ++ anywhere) u :=
        fun t ht => ⟨t ++ [slash], List.append_assoc .., ht⟩
      rintro (⟨t, rfl, ht⟩ | ⟨t, rfl, ht⟩)
      · exact hconcat t ((Glob.describes_concat_slash_iff front t).2 (Or.inl ht))
      · exact hconcat t ((Glob.describes_concat_slash_iff front t).2 (Or.inr ht))

/-- The rule `a[!.]` matches the directory `ab` since it matches a file of this name, and the
directory `a` since the slash behind its name is a symbol other than a dot. -/
theorem accepts_directory_iff_set :
    ofLine? "/r" "a[!.]" = some ⟨"a[!.]", "/r", false, false, [.deep, .literal slash, .literal 'a',
        .set true [.single '.'], .deep]⟩ ∧
      accepts ⟨"a[!.]", "/r", false, false, [.deep, .literal slash, .literal 'a',
        .set true [.single '.'], .deep]⟩ "/r/ab/" = true ∧
      accepts ⟨"a[!.]", "/r", false, false, [.deep, .literal slash, .literal 'a',
        .set true [.single '.'], .deep]⟩ "/r/a/" = true := by
  have hline : ofLine? "/r" "a[!.]" = some ⟨"a[!.]", "/r", false, false, [.deep, .literal slash,
      .literal 'a', .set true [.single '.'], .deep]⟩ := by cbv
  have hdirectory := (accepts_directory_iff hline).2 rfl
  have htaken : Glob.SlashTaken (pattern (split "a[!.]").2) "/a" := by
    have hslash : (Glob.Piece.bracket "!.").Matches [slash] :=
      .listed (by simp [Glob.IsMalformed, Glob.bracketItems]; decide) (by decide)
    refine ⟨[.deep, .run "/", .run "a"], .bracket "!.", [.deep], by cbv, ?_, .bracket hslash, ?_⟩
    · exact .cons Glob.Piece.Matches.none (.cons Glob.Piece.Matches.run
        (.cons Glob.Piece.Matches.run .nil))
    · intro p hp
      exact Or.inr (List.mem_singleton.1 hp)
  exact ⟨hline, (hdirectory "/r/ab").2 (Or.inl (by cbv)),
    (hdirectory "/r/a").2 (Or.inr ⟨"/a", by cbv, htaken⟩)⟩

/-- A line of `/r` makes a rule that is not only for directories, and that matches a directory with
the given path but not a file. -/
def AcceptsDirectoryAlone (line path : Text) : Prop :=
  ∃ r, ofLine? "/r" line = some r ∧ r.directoryOnly = false ∧ r.accepts path = false ∧
    r.accepts (path ++ [slash]) = true

/-- **A piece that matches the slash of a directory**: a `?`, a set or a written slash. -/
theorem directory_accepted_alone : AcceptsDirectoryAlone "ab?" "/r/ab" ∧
    AcceptsDirectoryAlone "a[!.]" "/r/a" ∧ AcceptsDirectoryAlone "a/*" "/r/a" := by
  have hany : ofLine? "/r" "ab?" = some ⟨"ab?", "/r", false, false,
      [.deep, .literal slash, .literal 'a', .literal 'b', .any, .deep]⟩ := by cbv
  have hset : ofLine? "/r" "a[!.]" = some ⟨"a[!.]", "/r", false, false,
      [.deep, .literal slash, .literal 'a', .set true [.single '.'], .deep]⟩ := by cbv
  have hslash : ofLine? "/r" "a/*" = some ⟨"a/*", "/r", false, false,
      [.deep, .literal slash, .literal 'a', .literal slash, .star, .deep]⟩ := by cbv
  exact ⟨⟨_, hany, rfl, by cbv, by cbv⟩, ⟨_, hset, rfl, by cbv, by cbv⟩,
    ⟨_, hslash, rfl, by cbv, by cbv⟩⟩

end Rule

end TreeSieve
