import Mathlib.Data.List.Basic
import TreeSieve.Rule

/-!
# The text of a line and its pattern

The text of a rule is what remains of its line without the white space around it and without the
backslashes that protect white space. In front of a symbol that is not white space, only backslashes
can disappear, so what else stands there does not matter for the rest of the line
(`Rule.exists_split_append`). How the text of a rule is completed to its pattern depends on the
slashes at its ends alone.
-/

namespace TreeSieve

open TreeSieve.Sym

namespace Rule

/-! ## White space at the end -/

theorem trimReversed_cons {s : Sym} (hs : s.isBlank = false) (t : Text) :
    trimReversed (s :: t) = s :: t := by
  cases t <;> simp [trimReversed, hs]

theorem trimEnd_concat {s : Sym} (hs : s.isBlank = false) (t : Text) :
    trimEnd (t ++ [s]) = t ++ [s] := by
  rw [trimEnd, List.reverse_concat, trimReversed_cons hs, List.reverse_cons, List.reverse_reverse]

/-- A symbol behind a backslash stays at the end, white space or not. -/
theorem trimEnd_concat_escaped (t : Text) (s : Sym) :
    trimEnd (t ++ [backslash, s]) = t ++ [backslash, s] := by
  simp [trimEnd, trimReversed]

/-- White space is trimmed up to a symbol of another kind, whatever stands in front of that. -/
theorem exists_trimReversed_append {c : Sym} (hc : c.isBlank = false) (t : Text) :
    ∃ w, ∀ p, trimReversed (t ++ c :: p) = w ++ c :: p := by
  induction t with
  | nil => exact ⟨[], fun p => trimReversed_cons hc p⟩
  | cons s t ih =>
    obtain ⟨w, hw⟩ := ih
    obtain ⟨b, hb⟩ : ∃ b, ∀ p, ∃ rest, t ++ c :: p = b :: rest := by
      cases t with
      | nil => exact ⟨c, fun p => ⟨p, rfl⟩⟩
      | cons b t => exact ⟨b, fun p => ⟨t ++ c :: p, rfl⟩⟩
    have hstep : ∀ p, trimReversed (s :: (t ++ c :: p)) =
        if s.isBlank && b ≠ backslash then trimReversed (t ++ c :: p) else s :: (t ++ c :: p) := by
      intro p
      obtain ⟨rest, hrest⟩ := hb p
      rw [hrest, trimReversed]
    by_cases htrim : (s.isBlank && b ≠ backslash) = true
    · exact ⟨w, fun p => by rw [List.cons_append, hstep, if_pos htrim, hw]⟩
    · exact ⟨s :: t, fun p => by rw [List.cons_append, hstep, if_neg htrim]⟩

theorem exists_trimEnd_append {c : Sym} (hc : c.isBlank = false) (t : Text) :
    ∃ w, ∀ p, trimEnd (p ++ c :: t) = p ++ c :: w := by
  obtain ⟨w, hw⟩ := exists_trimReversed_append hc t.reverse
  refine ⟨w.reverse, fun p => ?_⟩
  rw [trimEnd, List.reverse_append, List.reverse_cons, List.append_assoc, List.singleton_append, hw]
  simp

/-! ## Backslashes -/

theorem unescapeBlanks_cons {s : Sym} {t : Text}
    (h : s = backslash → ∀ c ∈ t.head?, c.isBlank = false) :
    unescapeBlanks (s :: t) = s :: unescapeBlanks t := by
  cases t with
  | nil => rfl
  | cons c t =>
    rw [unescapeBlanks, if_neg]
    rintro ⟨hs, hblank⟩
    rw [h hs c rfl] at hblank
    cases hblank

theorem unescapeBlanks_append {p : Text} (hp : backslash ∉ p) (t : Text) :
    unescapeBlanks (p ++ t) = p ++ unescapeBlanks t := by
  induction p with
  | nil => rfl
  | cons s p ih =>
    obtain ⟨hs, hp⟩ := List.ne_and_not_mem_of_not_mem_cons hp
    rw [List.cons_append, unescapeBlanks_cons fun h => absurd h.symm hs, ih hp, List.cons_append]

theorem unescape_cons {s : Sym} (hs : s ≠ backslash) (t : Text) :
    unescape (s :: t) = unescapeBlanks (s :: t) := by
  unfold unescape
  split
  · next heq => exact absurd (List.cons.inj heq).1 hs
  · rfl

/-! ## Lines -/

theorem isComment_cons {c : Sym} (hc : c.isBlank = false) (hhash : c ≠ .char '#') (t : Text) :
    isComment (c :: t) = false := by
  rw [isComment, List.dropWhile_cons_of_neg (by simp [hc])]
  split
  · next heq => cases heq
  · next heq => exact absurd (List.cons.inj heq).1 hhash
  · rfl

theorem split_cons {c : Sym} (hc : c.isBlank = false) (hmark : c ≠ .char '!') (t : Text) :
    split (c :: t) = (false, unescape (trimEnd (c :: t))) := by
  rw [split, List.dropWhile_cons_of_neg (by simp [hc])]
  split
  · next heq => exact absurd (List.cons.inj heq).1 hmark
  · rfl

theorem ofLine?_of_split {line t : Text} {negated : Bool} (hcomment : isComment line = false)
    (hsplit : split line = (negated, t)) (ht : t ≠ []) (directory : Text) :
    ofLine? directory line = some
      { source := line, anchor := Path.trimmed directory, directoryOnly := endsInSlash t, negated
        glob := Glob.read (pattern t) } := by
  obtain ⟨s, t, rfl⟩ := List.exists_cons_of_ne_nil ht
  rw [ofLine?, hcomment, hsplit]
  rfl

/-- The rest of a line has the same text behind anything else that is not touched itself. -/
theorem exists_split_append {c : Sym} (hc : c.isBlank = false) (hmark : c ≠ .char '!')
    (hback : c ≠ backslash) (t : Text) :
    ∃ w, split (c :: t) = (false, c :: w) ∧
      ∀ p, backslash ∉ p → split (slash :: p ++ c :: t) = (false, slash :: p ++ c :: w) := by
  obtain ⟨w, hw⟩ := exists_trimEnd_append hc t
  have htext : unescapeBlanks (c :: w) = c :: unescapeBlanks w :=
    unescapeBlanks_cons fun h => absurd h hback
  refine ⟨unescapeBlanks w, ?_, fun p hp => ?_⟩
  · rw [split_cons hc hmark, ← List.nil_append (c :: t), hw, List.nil_append, unescape_cons hback,
      htext]
  · have hslash : backslash ∉ slash :: p := List.not_mem_cons_of_ne_of_not_mem (by decide) hp
    rw [List.cons_append, split_cons (by decide) (by decide), ← List.cons_append, hw,
      List.cons_append, unescape_cons (by decide), ← List.cons_append,
      unescapeBlanks_append hslash, htext]

/-! ## Patterns -/

theorem endsInSlash_append (p : Text) {t : Text} (ht : t ≠ []) :
    endsInSlash (p ++ t) = endsInSlash t := by
  rw [endsInSlash, endsInSlash, List.getLast?_append_of_ne_nil p ht]

theorem endsInSlash_of_not_mem {t : Text} (ht : slash ∉ t) : endsInSlash t = false := by
  rw [endsInSlash, beq_eq_false_iff_ne]
  exact fun h => ht (List.mem_of_getLast? h)

theorem exists_pattern_eq_cons (t : Text) : ∃ rest, pattern t = slash :: rest := by
  have hfront : ∃ rest, (if t.head? = some slash then t else anywhere ++ slash :: t) =
      slash :: rest := by
    split
    · next h =>
      obtain ⟨rest, hrest⟩ := List.head?_eq_some_iff.1 h
      exact ⟨rest, hrest⟩
    · exact ⟨_, rfl⟩
  obtain ⟨rest, hrest⟩ := hfront
  rw [pattern, hrest]
  split
  · exact ⟨rest, rfl⟩
  · exact ⟨rest ++ anywhere, rfl⟩

/-- A text that begins with a slash is completed alike behind another one. -/
theorem pattern_slash_append (p : Text) {t : Text} (ht : t.head? = some slash) :
    pattern (slash :: p ++ t) = slash :: p ++ pattern t := by
  have hne : t ≠ [] := by
    rintro rfl
    cases ht
  rw [pattern, pattern, if_pos ht, List.cons_append, List.head?_cons, if_pos rfl,
    ← List.cons_append, endsInSlash_append _ hne]
  split
  · rfl
  · rw [List.append_assoc]

/-- What a text without a slash in front stands for. -/
theorem pattern_anywhere {t : Text} (ht : t.head? ≠ some slash) :
    pattern (anywhere ++ slash :: t) = pattern t := by
  rw [pattern, pattern, if_neg ht]
  rfl

end Rule

end TreeSieve
