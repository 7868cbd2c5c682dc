import Mathlib.Data.List.DropRight
import TreeSieve.Proofs.LineText

/-!
# Which lines are rules

A line is read by recursion from both of its ends. Here it is described symbol by symbol instead: a
symbol goes if it is loose white space at the end (`Text.isLoose`) or a backslash that only guards
something (`Text.isGuard`), and both can be seen from the symbols next to it. What is left of a line
like this is the text of its rule (`Rule.split_eq`).

Then the lines that make no rule are the blank ones, the comments and those of which nothing is left
(`Rule.ofLine?_classified`). A comment ends at a line feed, so a line that begins with `#` makes a
rule if it goes on behind one (`Rule.exists_rule_behind_hash`).
-/

namespace TreeSieve

open TreeSieve.Sym

namespace Text

/-! ## Symbols that go -/

/-- Whether there is white space at a position, and no backslash right before it. -/
def isLoose (t : Text) (i : Nat) : Bool :=
  t[i]?.any isBlank && (i == 0 || t[i - 1]? != some backslash)

/-- Whether there is a backslash at a position that stands in front of everything or right before
white space. -/
def isGuard (t : Text) (i : Nat) : Bool :=
  t[i]? == some backslash && (i == 0 || t[i + 1]?.any isBlank)

/-- A text without the loose white space at its end. -/
def withoutLooseEnd (t : Text) : Text := (t.zipIdx.rdropWhile fun e => t.isLoose e.2).map (·.1)

/-- A text without the backslashes that guard something. -/
def withoutGuards (t : Text) : Text := (t.zipIdx.filter fun e => !t.isGuard e.2).map (·.1)

theorem isLoose_append (u : Text) (s : Sym) (v : Text) :
    (u ++ s :: v).isLoose u.length = (s.isBlank && u.getLast? != some backslash) := by
  cases u using List.reverseRecOn with
  | nil => simp [isLoose]
  | append_singleton u c => simp [isLoose]

theorem isGuard_append {u : Text} (hu : u ≠ []) (s : Sym) (v : Text) :
    (u ++ s :: v).isGuard u.length = (s == backslash && v.head?.any isBlank) := by
  have hlength : (u.length == 0) = false := by simpa using hu
  have hbehind : (u ++ s :: v)[u.length + 1]? = v.head? := by
    rw [List.getElem?_append_right (Nat.le_succ _), Nat.succ_sub (Nat.le_refl _), Nat.sub_self,
      List.getElem?_cons_succ, List.head?_eq_getElem?]
  rw [isGuard, hbehind, hlength, List.getElem?_append_right (Nat.le_refl _), Nat.sub_self]
  rfl

end Text

namespace Rule

/-! ## The text of a line -/

theorem trimEnd_append_singleton (u : Text) (s : Sym) : trimEnd (u ++ [s]) =
    if s.isBlank && u.getLast? != some backslash then trimEnd u else u ++ [s] := by
  rw [trimEnd, List.reverse_concat, List.getLast?_eq_head?_reverse, trimEnd]
  cases hu : u.reverse with
  | nil =>
    obtain rfl := List.reverse_eq_nil_iff.1 hu
    cases hs : s.isBlank <;> simp [trimReversed, hs]
  | cons c rest =>
    obtain rfl : u = (c :: rest).reverse := by rw [← hu, List.reverse_reverse]
    rw [trimReversed]
    cases hs : s.isBlank <;> by_cases hc : c = backslash <;> simp [hc]

/-- Trimming takes the loose white space at the end away. -/
theorem trimEnd_eq (t : Text) : trimEnd t = t.withoutLooseEnd := by
  -- What comes behind a part of the text has no say in what is loose in the part.
  have hpart : ∀ u v : Text,
      trimEnd u = (u.zipIdx.rdropWhile fun e => (u ++ v).isLoose e.2).map (·.1) := by
    intro u
    induction u using List.reverseRecOn with
    | nil => exact fun _ => rfl
    | append_singleton u s ih =>
      intro v
      rw [List.append_assoc, List.singleton_append, trimEnd_append_singleton, List.zipIdx_append,
        Nat.zero_add, List.zipIdx_singleton, ← Text.isLoose_append u s v]
      let loose (e : Sym × Nat) : Bool := Text.isLoose (u ++ s :: v) e.2
      cases hloose : loose (s, u.length) with
      | true => rw [if_pos hloose, ih (s :: v), List.rdropWhile_concat_pos loose _ _ hloose]
      | false =>
        have hkept : ¬ loose (s, u.length) = true := by simp [hloose]
        rw [if_neg hkept, List.rdropWhile_concat_neg loose _ _ hkept]
        simp
  rw [hpart t [], List.append_nil, Text.withoutLooseEnd]

/-- Behind the front, the backslashes before white space are those that go. -/
theorem unescapeBlanks_eq {p : Text} (hp : p ≠ []) (u : Text) : unescapeBlanks u =
    ((u.zipIdx p.length).filter fun e => !(p ++ u).isGuard e.2).map (·.1) := by
  induction u generalizing p with
  | nil => rfl
  | cons s u ih =>
    have hrest : unescapeBlanks u =
        ((u.zipIdx (p.length + 1)).filter fun e => !(p ++ s :: u).isGuard e.2).map (·.1) := by
      have := ih (p := p ++ [s]) (by simp)
      rwa [List.length_append, List.append_assoc] at this
    have hfirst : unescapeBlanks (s :: u) =
        if (s == backslash && u.head?.any isBlank) then unescapeBlanks u
        else s :: unescapeBlanks u := by
      cases u with
      | nil => simp [unescapeBlanks]
      | cons c u => by_cases hs : s = backslash <;> simp [unescapeBlanks, hs]
    rw [hfirst, ← Text.isGuard_append hp s u, List.zipIdx_cons, hrest]
    cases hguard : (p ++ s :: u).isGuard p.length with
    | true => rw [if_pos rfl, List.filter_cons_of_neg (by simp [hguard])]
    | false =>
      rw [if_neg Bool.false_ne_true, List.filter_cons_of_pos (by simp [hguard]), List.map_cons]

/-- Unescaping takes the backslashes away that guard something. -/
theorem unescape_eq (t : Text) : unescape t = t.withoutGuards := by
  cases t with
  | nil => rfl
  | cons s u =>
    have hrest := unescapeBlanks_eq (p := [s]) (by simp) u
    rw [List.singleton_append] at hrest
    have hguard : Text.isGuard (s :: u) 0 = (s == backslash) := by simp [Text.isGuard]
    rw [Text.withoutGuards, List.zipIdx_cons]
    by_cases hs : s = backslash
    · subst hs
      rw [List.filter_cons_of_neg (by simp [hguard])]
      exact hrest
    · have hkept : unescapeBlanks (s :: u) = s :: unescapeBlanks u :=
        unescapeBlanks_cons fun h => absurd h hs
      rw [List.filter_cons_of_pos (by simp [hguard, hs]), List.map_cons, unescape_cons hs, hkept,
        hrest]
      rfl

/-- The first symbol of a line that is not white space. -/
def mark? (line : Text) : Option Sym := line.find? fun s => !s.isBlank

/-- What is left of a line without the white space in front, one `!` behind it, the loose white
space at the end and the backslashes that guard something. -/
def remaining (line : Text) : Text :=
  let t : Text := line.dropWhile isBlank
  let t : Text := if t.head? = some (.char '!') then t.tail else t
  t.withoutLooseEnd.withoutGuards

theorem head?_dropWhile_isBlank (line : Text) : (line.dropWhile isBlank).head? = mark? line := by
  induction line with
  | nil => rfl
  | cons s line ih => cases hs : s.isBlank <;> simp [mark?, hs, ih]

/-- **The two parts of a line.** -/
theorem split_eq (line : Text) :
    split line = (mark? line == some (.char '!'), remaining line) := by
  rw [split, remaining, ← head?_dropWhile_isBlank]
  split
  · next t ht => simp [ht, trimEnd_eq, unescape_eq]
  · next hmark =>
    have hhead : (line.dropWhile isBlank).head? ≠ some (.char '!') := by
      intro h
      obtain ⟨t, ht⟩ := List.head?_eq_some_iff.1 h
      exact hmark t ht
    simp only [trimEnd_eq, unescape_eq, if_neg hhead, beq_false_of_ne hhead]

/-! ## Comments -/

/-- Whether a line is a note: its first symbol other than white space is `#`, and no line feed
comes behind it except as the last symbol of the line. -/
def IsNote (line : Text) : Prop :=
  mark? line = some (.char '#') ∧ lineFeed ∉ (line.dropWhile isBlank).dropLast

instance : DecidablePred IsNote := fun _ => inferInstanceAs (Decidable (_ ∧ _))

theorem dropWhile_ne_mem_iff (note : Text) :
    note.dropWhile (· ≠ lineFeed) ∈ [[], [lineFeed]] ↔ lineFeed ∉ note.dropLast := by
  induction note with
  | nil => simp
  | cons s note ih =>
    by_cases hs : s = lineFeed
    · rw [List.dropWhile_cons_of_neg (by simp [hs])]
      cases note <;> simp [hs]
    · rw [List.dropWhile_cons_of_pos (by simp [hs]), ih]
      cases note with
      | nil => simp
      | cons c note => simp [Ne.symm hs]

theorem isComment_iff (line : Text) :
    isComment line = true ↔ (∀ s ∈ line, s.isBlank = true) ∨ IsNote line := by
  rw [isComment, IsNote, ← head?_dropWhile_isBlank, ← List.dropWhile_eq_nil_iff]
  split
  · next h => simp [h]
  · next note h =>
    have hfirst : lineFeed ∉ (.char '#' :: note : Text).dropLast ↔ lineFeed ∉ note.dropLast := by
      cases note <;> simp
    simp [h, hfirst, ← dropWhile_ne_mem_iff]
  · next hnil hhash =>
    cases ht : line.dropWhile isBlank with
    | nil => exact absurd ht hnil
    | cons s t =>
      have hs : s ≠ .char '#' := fun h => hhash t (h ▸ ht)
      simp [hs]

/-! ## Lines -/

/-- **Which lines are rules.** A line makes no rule if it is blank, if it is a note or if nothing is
left of it. Every other line makes a rule, which is negated if its first symbol other than white
space is `!`, and for directories only if what is left of it ends in a slash. -/
theorem ofLine?_classified (directory line : Text) :
    (ofLine? directory line = none ↔
      (∀ s ∈ line, s.isBlank = true) ∨ IsNote line ∨ remaining line = []) ∧
    ∀ r, ofLine? directory line = some r →
      (r.negated = true ↔ mark? line = some (.char '!')) ∧
      (r.directoryOnly = true ↔ (remaining line).getLast? = some slash) := by
  rw [← or_assoc, ← isComment_iff]
  cases hcomment : isComment line with
  | true => simp [ofLine?, hcomment]
  | false =>
    by_cases hnil : remaining line = []
    · have hnone : ofLine? directory line = none := by
        rw [ofLine?, hcomment, split_eq, hnil]
        rfl
      simp [hnone, hnil]
    · have hsome := ofLine?_of_split hcomment (split_eq line) hnil directory
      refine ⟨by simp [hsome, hnil], fun r hr => ?_⟩
      rw [hsome] at hr
      obtain rfl := Option.some.inj hr
      simp [endsInSlash]

theorem ofLine?_classified_guarded_blank :
    ∃ r, ofLine? "/r" " !\\ a/ " = some r ∧ r.negated = true ∧ r.directoryOnly = true := by
  obtain ⟨hnone, hsome⟩ := ofLine?_classified "/r" " !\\ a/ "
  have hrule : ofLine? "/r" " !\\ a/ " ≠ none := fun h => absurd (hnone.1 h) (by decide)
  obtain ⟨r, hr⟩ := Option.ne_none_iff_exists'.1 hrule
  obtain ⟨hnegated, hdirectory⟩ := hsome r hr
  exact ⟨r, hr, hnegated.2 (by decide), hdirectory.2 (by decide)⟩

/-- The first symbol of a line is `#`, and yet the line makes a rule. -/
theorem exists_rule_behind_hash :
    mark? "#a\nb" = some (.char '#') ∧ (ofLine? "/r" "#a\nb").isSome = true := by
  decide

end Rule

end TreeSieve
