import TreeSieve.Glob.Regex
import TreeSieve.Proofs.GlobLanguage

/-!
# Patterns between slashes

No piece of a pattern goes over a slash: a run of literal text and a bracket hold none, and the only
piece that begins with a slash and goes on is `/**`. So the pieces of a pattern are those of what
stands before one of its slashes and then those of the rest (`Glob.pieces_append_slash`), whatever
backslashes, open brackets and stars stand before it. What a piece can match, one symbol at the end
or nothing at all, is read off in the same way.

The regular expression of a pattern is written token by token, so a slash cuts it too, and the
segments of a pattern are written independently of each other (`Glob.regex_read_append_slash`).
-/

namespace TreeSieve

open TreeSieve.Sym

namespace Glob

/-! ## Cutting a pattern at a slash -/

theorem takeRun_append_slash (afterBackslash : Bool) (t rest : Text) :
    takeRun afterBackslash (t ++ slash :: rest) =
      ((takeRun afterBackslash t).1, (takeRun afterBackslash t).2 ++ slash :: rest) := by
  induction t generalizing afterBackslash with
  | nil => rfl
  | cons s t ih =>
    rw [List.cons_append, takeRun, takeRun, ih]
    split <;> rfl

theorem bracket?_append_slash (t rest : Text) :
    bracket? (t ++ slash :: rest) =
      (bracket? t).map fun found => (found.1, found.2 ++ slash :: rest) := by
  cases hfound : bracket? t with
  | some found =>
    obtain ⟨rfl, hne, hbody⟩ := bracket?_eq_some_iff.1 hfound
    rw [List.append_assoc]
    exact bracket?_eq_some_iff.2 ⟨rfl, hne, hbody⟩
  | none =>
    rw [Option.map_none, Option.eq_none_iff_forall_ne_some]
    rintro ⟨body, after⟩ hlonger
    obtain ⟨hsplit, hne, hbody⟩ := bracket?_eq_some_iff.1 hlonger
    -- The bracket would be closed before the slash.
    rcases List.append_eq_append_iff.1 hsplit with ⟨more, hmore, hafter⟩ | ⟨more, hmore, hafter⟩
    · cases more with
      | nil => cases hafter
      | cons s more =>
        obtain ⟨rfl, -⟩ := List.cons.inj hafter
        have hslash := hbody slash (by simp [hmore])
        cases hslash
    · cases more with
      | nil => cases hafter
      | cons s more =>
        obtain ⟨rfl, -⟩ := List.cons.inj hafter
        rw [bracket?_eq_some_iff.2 ⟨hmore, hne, hbody⟩] at hfound
        cases hfound

theorem first_append_slash (afterBackslash : Bool) (s : Sym) (t rest : Text) :
    first afterBackslash s (t ++ slash :: rest) =
      ((first afterBackslash s t).1, (first afterBackslash s t).2 ++ slash :: rest) := by
  unfold first
  split
  · rw [← List.cons_append, takeRun_append_slash]
  · split
    · -- Two stars behind a slash are found before or behind the end of the text, not across it.
      rcases t with _ | ⟨a, _ | ⟨b, t⟩⟩
      · rfl
      · by_cases ha : a = .char '*'
        · rw [ha]
          rfl
        · simp [ha]
      · by_cases ha : a = .char '*'
        · subst ha
          by_cases hb : b = .char '*'
          · rw [hb]
            rfl
          · simp [hb]
        · simp [ha]
    · split
      · rfl
      · split
        · rfl
        · rw [bracket?_append_slash]
          cases bracket? t <;> rfl

/-- The slash that begins a text is read alike wherever the text stands. -/
theorem pieces_slash (afterBackslash : Bool) (rest : Text) :
    pieces afterBackslash (slash :: rest) = pieces false (slash :: rest) := by
  have hfirst : first afterBackslash slash rest = first false slash rest := by
    cases afterBackslash <;> rfl
  rw [pieces, pieces, hfirst]

/-- **A slash cuts a pattern.** -/
theorem pieces_append_slash (afterBackslash : Bool) (t rest : Text) :
    pieces afterBackslash (t ++ slash :: rest) =
      pieces afterBackslash t ++ pieces false (slash :: rest) := by
  fun_induction pieces afterBackslash t with
  | case1 afterBackslash => exact pieces_slash afterBackslash rest
  | case2 afterBackslash s t ih =>
    rw [List.cons_append, pieces, first_append_slash, ih, List.cons_append]

/-- The tokens of what stands before a slash do not depend on what comes behind it. -/
theorem read_append_slash (t rest : Text) :
    read (t ++ slash :: rest) = read t ++ read (slash :: rest) := by
  rw [read, read, read, readFrom_eq, readFrom_eq, readFrom_eq, pieces_append_slash,
    List.flatMap_append]

theorem pieces_single_slash : pieces false [slash] = [.run [slash]] := by
  simp [pieces, first, inRun]

theorem pieces_anywhere (rest : Text) :
    pieces false (Rule.anywhere ++ rest) = .deep :: pieces false rest := by
  have hfirst : first false slash ([.char '*', .char '*'] ++ rest) = (.deep, rest) := rfl
  rw [List.cons_append, pieces, hfirst]
  rfl

/-- What is put behind a pattern as `/**` is a piece of its own. -/
theorem pieces_append_anywhere (t : Text) :
    pieces false (t ++ Rule.anywhere) = pieces false t ++ [.deep] := by
  have hdeep : pieces false Rule.anywhere = [.deep] := by
    rw [← List.append_nil Rule.anywhere, pieces_anywhere, pieces]
  rw [pieces_append_slash, hdeep]

/-! ## Cutting a regular expression at a slash -/

theorem regex_append (g h : Glob) : regex (g ++ h) = g.regex ++ h.regex := List.flatMap_append

/-- The segments of a pattern come one after another, the later ones with the slash before them. -/
theorem read_segments (first : Text) (rest : List Text) :
    read (first ++ rest.flatMap (slash :: ·)) =
      read first ++ rest.flatMap fun segment => read (slash :: segment) := by
  induction rest generalizing first with
  | nil => simp
  | cons segment rest ih =>
    have hsplit : first ++ (segment :: rest).flatMap (slash :: ·) =
        (first ++ slash :: segment) ++ rest.flatMap (slash :: ·) := by simp
    rw [hsplit, ih, read_append_slash, List.flatMap_cons, List.append_assoc]

/-- **A slash cuts the regular expression of a pattern.** No piece reaches over the slash, so what
stands before it and what begins with it are written each for itself, and so is every segment of a
pattern. In particular, a `/**` behind a pattern leaves the pieces of the pattern as they are. -/
theorem regex_read_append_slash (p q : Text) :
    (read (p ++ slash :: q)).regex = (read p).regex ++ (read (slash :: q)).regex ∧
    pieces false (p ++ slash :: q) = pieces false p ++ pieces false (slash :: q) ∧
    (∀ (first : Text) (rest : List Text), (read (first ++ rest.flatMap (slash :: ·))).regex =
      (read first).regex ++ rest.flatMap fun segment => (read (slash :: segment)).regex) ∧
    pieces false (p ++ Rule.anywhere) = pieces false p ++ [.deep] ∧
    (read (p ++ Rule.anywhere)).regex = (read p).regex ++ "(/.*)?" := by
  have hdeep : (read Rule.anywhere).regex = "(/.*)?" := by
    rw [read, readFrom_eq, ← List.nil_append Rule.anywhere, pieces_append_anywhere, pieces]
    rfl
  refine ⟨?_, pieces_append_slash false p q, fun first rest => ?_, pieces_append_anywhere p, ?_⟩
  · rw [read_append_slash, regex_append]
  · have hrest : regex (rest.flatMap fun segment => read (slash :: segment)) =
        rest.flatMap fun segment => (read (slash :: segment)).regex := List.flatMap_assoc
    rw [read_segments, regex_append, hrest]
  · rw [← hdeep, ← regex_append, read_append_slash]

/-! ## Runs -/

theorem slash_not_mem_takeRun (afterBackslash : Bool) (t : Text) :
    slash ∉ (takeRun afterBackslash t).1 := by
  induction t generalizing afterBackslash with
  | nil => exact List.not_mem_nil
  | cons s t ih =>
    rw [takeRun]
    split
    · next hrun =>
      have hs : slash ≠ s := by
        rintro rfl
        cases hrun
      exact List.not_mem_cons_of_ne_of_not_mem hs (ih _)
    · exact List.not_mem_nil

/-- A run is a slash, or it has no slash and is not empty. -/
def Piece.IsProper : Piece → Prop
  | .run t => t = [slash] ∨ slash ∉ t ∧ t ≠ []
  | _ => True

theorem isProper_first (afterBackslash : Bool) (s : Sym) (rest : Text) :
    (first afterBackslash s rest).1.IsProper := by
  unfold first
  split
  · next hrun =>
    refine Or.inr ⟨slash_not_mem_takeRun _ _, ?_⟩
    rw [takeRun, if_pos hrun]
    exact List.cons_ne_nil _ _
  · next hrun =>
    split
    · next hslash =>
      rw [hslash]
      split
      · trivial
      · exact Or.inl rfl
    · next hslash =>
      split
      · trivial
      · split
        · trivial
        · split
          · trivial
          · exact Or.inr ⟨by simpa using Ne.symm hslash, List.cons_ne_nil _ _⟩

theorem isProper_of_mem_pieces {afterBackslash : Bool} {t : Text} {piece : Piece}
    (h : piece ∈ pieces afterBackslash t) : piece.IsProper := by
  fun_induction pieces afterBackslash t with
  | case1 => cases h
  | case2 afterBackslash s rest ih =>
    rcases List.mem_cons.1 h with rfl | h
    · exact isProper_first ..
    · exact ih h

theorem mem_of_mem_unescapeRun {s : Sym} {t : Text} (h : s ∈ unescapeRun t) : s ∈ t := by
  fun_induction unescapeRun t with
  | case1 | case2 => exact h
  | case3 s' c rest _ ih =>
    rcases List.mem_cons.1 h with rfl | h
    · simp
    · simp [ih h]
  | case4 s' c rest _ ih =>
    rcases List.mem_cons.1 h with rfl | h
    · simp
    · exact List.mem_cons_of_mem _ (ih h)

theorem unescapeRun_ne_nil {t : Text} (h : t ≠ []) : unescapeRun t ≠ [] := by
  fun_cases unescapeRun t with
  | case1 => exact absurd rfl h
  | case2 | case3 | case4 => exact List.cons_ne_nil _ _

end Glob

end TreeSieve
