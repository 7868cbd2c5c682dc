import Mathlib.Algebra.Ring.Parity
import TreeSieve.Proofs.GlobLanguage

/-!
# Runs of backslashes

There are two ways to say what a backslash does in a pattern. Read from left to right, it belongs to
the symbol behind it and makes that literal, be it a wildcard or another backslash
(`Glob.leftToRight`). Then behind an even number of backslashes a wildcard is a wildcard. The globs
of rules are read in another way: a wildcard is literal whenever a backslash comes just before it,
also one that belongs to a pair.

`Glob.readBehind` counts the backslashes in front of a symbol and covers both. Any number of them
makes half as many literal ones before `*`, `?` and `[`, and the two readings differ in nothing but
the wildcards behind pairs (`Glob.read_eq_readBehind`).
-/

namespace TreeSieve

open TreeSieve.Sym

namespace Glob

/-! ## Two readings -/

/-- The tokens of what a symbol begins when no backslash makes it literal, and what follows it. -/
def unescaped (s : Sym) (rest : Text) : Glob × Text :=
  if s = .char '*' then ([.star], rest)
  else if s = .char '?' then ([.any], rest)
  else if s = .char '[' then
    match bracket? rest with
    | some (body, rest) => (ofBracket body, rest)
    | none => ([.literal s], rest)
  else
    match s, rest with
    | .char '/', .char '*' :: .char '*' :: rest => ([.deep], rest)
    | _, _ => ([.literal s], rest)

theorem length_unescaped (s : Sym) (rest : Text) :
    (unescaped s rest).2.length ≤ rest.length := by
  unfold unescaped
  split
  · exact Nat.le_refl _
  split
  · exact Nat.le_refl _
  split
  · split
    · next hbracket => exact Nat.le_of_lt (bracket?_length hbracket)
    · exact Nat.le_refl _
  · split
    · simp only [List.length_cons]
      omega
    · exact Nat.le_refl _

/-- The tokens of a pattern read from left to right, where a backslash makes the symbol behind it
literal if that is `[`, `*`, `?` or a backslash. -/
def leftToRight : Text → Glob
  | [] => []
  | .char '\\' :: c :: rest =>
    if isEscapable c then .literal c :: leftToRight rest
    else .literal backslash :: leftToRight (c :: rest)
  | s :: rest => (unescaped s rest).1 ++ leftToRight (unescaped s rest).2
termination_by t => t.length
decreasing_by
  · simp only [List.length_cons]
    omega
  · simp only [List.length_cons]
    omega
  · exact Nat.lt_succ_of_le (length_unescaped ..)

/-- Whether a wildcard is one behind a number of backslashes. It is with none, and perhaps behind
pairs of them. -/
def staysWild (behindPairs : Bool) (count : Nat) : Bool :=
  count == 0 || (behindPairs && count % 2 == 0)

/-- The tokens of a pattern behind a number of backslashes. Before `[`, `*` and `?` two of them make
one, and so they do elsewhere, but there a single one stands for itself, too. -/
def readBehind (behindPairs : Bool) : (count : Nat) → Text → Glob
  | count, [] => List.replicate ((count + 1) / 2) (.literal backslash)
  | count, s :: rest =>
    if s = backslash then readBehind behindPairs (count + 1) rest
    else if isEscapable s then
      List.replicate (count / 2) (.literal backslash) ++
        if staysWild behindPairs count then
          (unescaped s rest).1 ++ readBehind behindPairs 0 (unescaped s rest).2
        else .literal s :: readBehind behindPairs 0 rest
    else
      List.replicate ((count + 1) / 2) (.literal backslash) ++
        ((unescaped s rest).1 ++ readBehind behindPairs 0 (unescaped s rest).2)
termination_by _ t => t.length
decreasing_by
  · exact Nat.lt_succ_self _
  · exact Nat.lt_succ_of_le (length_unescaped ..)
  · exact Nat.lt_succ_self _
  · exact Nat.lt_succ_of_le (length_unescaped ..)

/-- A reader that takes backslashes in pairs. It knows whether a pair has just been taken, and this
can matter for wildcards only. -/
structure TakesPairs (behindPairs : Bool) (f : Bool → Text → Glob) : Prop where
  nil : ∀ b, f b [] = []
  lone : ∀ b, f b [backslash] = [.literal backslash]
  pair : ∀ b t, f b (backslash :: backslash :: t) = .literal backslash :: f true t
  escaped : ∀ b c t, isEscapable c = true → c ≠ backslash →
    f b (backslash :: c :: t) = .literal c :: f false t
  single : ∀ b c t, isEscapable c = false →
    f b (backslash :: c :: t) = .literal backslash :: f true (c :: t)
  plain : ∀ b c t, isEscapable c = false →
    f b (c :: t) = (unescaped c t).1 ++ f false (unescaped c t).2
  wild : ∀ b c t, isEscapable c = true → c ≠ backslash → f b (c :: t) =
    if b && !behindPairs then .literal c :: f false t
    else (unescaped c t).1 ++ f false (unescaped c t).2

namespace TakesPairs

variable {behindPairs : Bool} {f : Bool → Text → Glob} (h : TakesPairs behindPairs f)

include h

theorem even (n : Nat) (b : Bool) (t : Text) :
    f b (List.replicate (2 * n) backslash ++ t) =
      List.replicate n (.literal backslash) ++ f (b || n != 0) t := by
  induction n generalizing b with
  | zero => simp
  | succ n ih =>
    have hsucc : List.replicate (2 * (n + 1)) backslash =
        backslash :: backslash :: List.replicate (2 * n) backslash := rfl
    rw [hsucc, List.cons_append, List.cons_append, h.pair, ih, List.replicate_succ,
      List.cons_append]
    simp

theorem odd (n : Nat) (b : Bool) (t : Text) :
    f b (List.replicate (2 * n + 1) backslash ++ t) =
      List.replicate n (.literal backslash) ++ f (b || n != 0) (backslash :: t) := by
  rw [List.replicate_succ', List.append_assoc, h.even]
  rfl

/-- Every reader that takes backslashes in pairs comes to what counting them gives. -/
theorem eq_readBehind (count : Nat) (t : Text) :
    f false (List.replicate count backslash ++ t) = readBehind behindPairs count t := by
  -- The pairs are taken first, and then there is one backslash left or none.
  fun_induction readBehind behindPairs count t with
  | case1 count =>
    obtain ⟨n, rfl | rfl⟩ := Nat.even_or_odd' count
    · rw [h.even, h.nil, List.append_nil, show (2 * n + 1) / 2 = n by omega]
    · rw [h.odd, h.lone, show (2 * n + 1 + 1) / 2 = n + 1 by omega, List.replicate_succ']
  | case2 count rest ih => rwa [List.replicate_succ', List.append_assoc] at ih
  | case3 count s rest hs hesc ihwild ihliteral =>
    rw [List.replicate_zero, List.nil_append] at ihwild ihliteral
    obtain ⟨n, rfl | rfl⟩ := Nat.even_or_odd' count
    · have hstays : staysWild behindPairs (2 * n) = !((false || n != 0) && !behindPairs) := by
        cases behindPairs <;> simp [staysWild, bne]
      rw [h.even, h.wild _ _ _ hesc hs, hstays, ihwild, ihliteral, show 2 * n / 2 = n by omega]
      cases (false || n != 0) && !behindPairs <;> rfl
    · have hstays : staysWild behindPairs (2 * n + 1) = false := by
        simp [staysWild]
      rw [h.odd, h.escaped _ _ _ hesc hs, hstays, ihliteral, show (2 * n + 1) / 2 = n by omega]
      rfl
  | case4 count s rest hs hesc ih =>
    rw [Bool.not_eq_true] at hesc
    rw [List.replicate_zero, List.nil_append] at ih
    obtain ⟨n, rfl | rfl⟩ := Nat.even_or_odd' count
    · rw [h.even, h.plain _ _ _ hesc, ih, show (2 * n + 1) / 2 = n by omega]
    · rw [h.odd, h.single _ _ _ hesc, h.plain _ _ _ hesc, ih,
        show (2 * n + 1 + 1) / 2 = n + 1 by omega, List.replicate_succ', List.append_assoc]
      rfl

end TakesPairs

/-! ## The two readers -/

theorem takesPairs_leftToRight : TakesPairs true fun _ => leftToRight where
  nil _ := by rw [leftToRight]
  lone _ := by
    rw [leftToRight.eq_3 _ _ (by simp)]
    exact leftToRight.eq_1 ▸ rfl
  pair _ t := by rw [leftToRight, if_pos (by decide)]
  escaped _ c t hc _ := by rw [leftToRight, if_pos hc]
  single _ c t hc := by rw [leftToRight, if_neg (by simp [hc])]
  plain _ c t hc := by
    rw [leftToRight.eq_3]
    rintro c' rest rfl -
    cases hc
  wild b c t hc hback := by
    rw [leftToRight.eq_3]
    · simp
    · rintro c' rest rfl -
      exact hback rfl

theorem takesPairs_readFrom : TakesPairs false readFrom where
  nil b := by rw [readFrom]
  lone b := by
    have hrun : inRun b backslash = true := by cases b <;> rfl
    rw [readFrom_of_inRun hrun fun _ => rfl, readFrom]
  pair b t := by rw [readFrom, if_pos (by decide), decide_eq_true rfl]
  escaped b c t hc hback := by rw [readFrom, if_pos hc, decide_eq_false hback]
  single b c t hc := by rw [readFrom, if_neg (by simp [hc])]
  plain b c t hc := by
    by_cases hslash : c = slash
    · subst hslash
      unfold unescaped
      rw [if_neg (by decide), if_neg (by decide), if_neg (by decide)]
      split
      · rw [readFrom]
        rfl
      · next hdeep =>
        rw [readFrom.eq_4 _ _ _ (fun _ _ hs _ => by cases hs) fun rest _ hrest =>
          hdeep rest rfl hrest]
        cases b <;> rfl
    · have hone : unescaped c t = ([.literal c], t) := by
        simp only [isEscapable, Bool.or_eq_false_iff, decide_eq_false_iff_not] at hc
        obtain ⟨⟨⟨hopen, hstar⟩, hany⟩, -⟩ := hc
        unfold unescaped
        rw [if_neg hstar, if_neg hany, if_neg hopen]
        split
        · exact absurd rfl hslash
        · rfl
      rw [readFrom_cons_of_not_isEscapable hslash hc, hone]
      rfl
  wild b c t hc hback := by
    cases b with
    | true =>
      rw [readFrom_of_inRun (inRun_of_isEscapable hc) fun h => absurd h hback,
        decide_eq_false hback]
      rfl
    | false =>
      have hslash : c ≠ slash := by
        rintro rfl
        cases hc
      rw [readFrom.eq_4 _ _ _ (fun _ _ hs _ => hback hs) fun _ hs _ => hslash hs]
      simp only [isEscapable, Bool.or_eq_true, decide_eq_true_eq] at hc
      rcases hc with ((rfl | rfl) | rfl) | rfl
      · unfold unescaped
        cases hbracket : bracket? t <;> simp
      · rfl
      · rfl
      · exact absurd rfl hback

/-! ## Where the two readings agree -/

/-- Some `*`, `?` or bracket in a pattern has a positive even number of backslashes before it. -/
def HasWildcardBehindPairs (pattern : Text) : Prop :=
  ∃ front n s rest, pattern = front ++ List.replicate (2 * n + 2) backslash ++ s :: rest ∧
    front.getLast? ≠ some backslash ∧
    (s = .char '*' ∨ s = .char '?' ∨ s = .char '[' ∧ (bracket? rest).isSome)

theorem HasWildcardBehindPairs.append {front t : Text} (hfront : front.getLast? ≠ some backslash)
    (h : HasWildcardBehindPairs t) : HasWildcardBehindPairs (front ++ t) := by
  obtain ⟨front', n, s, rest, rfl, hlast, hs⟩ := h
  refine ⟨front ++ front', n, s, rest, by simp only [List.append_assoc], ?_, hs⟩
  rw [List.getLast?_append]
  cases hback : front'.getLast? with
  | none => exact hfront
  | some b => rwa [hback] at hlast

/-- What a symbol other than a backslash begins does not end in a backslash. -/
theorem exists_unescaped_append {s : Sym} (hs : s ≠ backslash) (rest : Text) :
    ∃ front c, c ≠ backslash ∧ s :: rest = front ++ c :: (unescaped s rest).2 := by
  have hself : ∃ front c, c ≠ backslash ∧ s :: rest = front ++ c :: rest := ⟨[], s, hs, rfl⟩
  unfold unescaped
  split
  · exact hself
  split
  · exact hself
  split
  · next hopen =>
    split
    · next body after hbracket =>
      obtain ⟨rfl, -⟩ := bracket?_eq_some_iff.1 hbracket
      exact ⟨s :: body, .char ']', by decide, rfl⟩
    · exact hself
  · split
    · exact ⟨[.char '/', .char '*'], .char '*', by decide, rfl⟩
    · exact hself

/-- Where the symbol behind pairs of backslashes begins no wildcard, it stands for itself anyway. -/
theorem unescaped_of_not_hasWildcardBehindPairs {n : Nat} {s : Sym} {rest : Text}
    (hs : isEscapable s = true) (hback : s ≠ backslash)
    (h : ¬HasWildcardBehindPairs (List.replicate (2 * n + 2) backslash ++ s :: rest)) :
    unescaped s rest = ([.literal s], rest) := by
  have hnone : ¬(s = .char '*' ∨ s = .char '?' ∨ s = .char '[' ∧ (bracket? rest).isSome) :=
    fun hwild => h ⟨[], n, s, rest, rfl, by simp, hwild⟩
  simp only [not_or, not_and, Option.not_isSome_iff_eq_none] at hnone
  obtain ⟨hstar, hany, hopen⟩ := hnone
  simp only [isEscapable, Bool.or_eq_true, decide_eq_true_eq] at hs
  rcases hs with ((rfl | rfl) | rfl) | rfl
  · unfold unescaped
    simp [hopen rfl]
  · exact absurd rfl hstar
  · exact absurd rfl hany
  · exact absurd rfl hback

/-- What follows a symbol other than a backslash has the pairs that the whole pattern has. -/
theorem not_hasWildcardBehindPairs_of_append {count : Nat} {s c : Sym} {rest front after : Text}
    (hc : c ≠ backslash) (heq : s :: rest = front ++ c :: after)
    (h : ¬HasWildcardBehindPairs (List.replicate count backslash ++ s :: rest)) :
    ¬HasWildcardBehindPairs (List.replicate 0 backslash ++ after) := by
  intro hafter
  have hfront : (List.replicate count backslash ++ front ++ [c]).getLast? ≠ some backslash := by
    rw [List.getLast?_concat]
    exact mt Option.some.inj hc
  have hwhole := hafter.append hfront
  rw [List.replicate_zero, List.nil_append, List.append_assoc, List.append_assoc,
    List.singleton_append, ← heq] at hwhole
  exact h hwhole

/-- The two ways of counting differ in nothing but the wildcards behind pairs. -/
theorem readBehind_congr (count : Nat) (t : Text)
    (h : ¬HasWildcardBehindPairs (List.replicate count backslash ++ t)) :
    readBehind false count t = readBehind true count t := by
  fun_induction readBehind false count t with
  | case1 count => rw [readBehind]
  | case2 count rest ih =>
    rw [readBehind, if_pos rfl]
    exact ih (by rwa [List.replicate_succ', List.append_assoc])
  | case3 count s rest hs hesc ihwild ihliteral =>
    obtain ⟨front, c, hc, heq⟩ := exists_unescaped_append hs rest
    rw [readBehind, if_neg hs, if_pos hesc,
      ihwild (not_hasWildcardBehindPairs_of_append hc heq h),
      ihliteral (not_hasWildcardBehindPairs_of_append hs (List.nil_append _).symm h)]
    -- With none or an odd number in front, both say the same of the symbol.
    by_cases heven : ∃ n, count = 2 * n + 2
    · obtain ⟨n, rfl⟩ := heven
      rw [unescaped_of_not_hasWildcardBehindPairs hesc hs h, List.singleton_append, ite_self,
        ite_self]
    · have hstays : staysWild false count = staysWild true count := by
        cases count with
        | zero => rfl
        | succ count =>
          have hodd : (count + 1) % 2 = 1 := by
            by_contra hne
            exact heven ⟨(count + 1) / 2 - 1, by omega⟩
          simp [staysWild, hodd]
      rw [hstays]
  | case4 count s rest hs hesc ih =>
    obtain ⟨front, c, hc, heq⟩ := exists_unescaped_append hs rest
    rw [readBehind, if_neg hs, if_neg hesc, ih (not_hasWildcardBehindPairs_of_append hc heq h)]

/-- **Runs of backslashes before wildcards.** Both readings come to the literals and wildcards that
counting the backslashes gives. The globs of rules take a wildcard behind a pair as literal, though,
and so they match what the reading from left to right says for all patterns without one. -/
theorem read_eq_readBehind (pattern : Text) :
    read pattern = readBehind false 0 pattern ∧
      leftToRight pattern = readBehind true 0 pattern ∧
      (¬HasWildcardBehindPairs pattern →
        ∀ t, (read pattern).accepts t = (leftToRight pattern).accepts t) := by
  have hread : read pattern = readBehind false 0 pattern :=
    takesPairs_readFrom.eq_readBehind 0 pattern
  have hleft : leftToRight pattern = readBehind true 0 pattern :=
    takesPairs_leftToRight.eq_readBehind 0 pattern
  refine ⟨hread, hleft, fun h t => ?_⟩
  rw [hread, hleft, readBehind_congr 0 pattern h]

/-- Behind three backslashes a star is literal in both readings, and the glob matches the text of
one backslash and the star. -/
theorem read_eq_readBehind_three : ¬HasWildcardBehindPairs "a\\\\\\*?" ∧
    (read "a\\\\\\*?").accepts "a\\*b" = true ∧
    (leftToRight "a\\\\\\*?").accepts "a\\*b" = true := by
  have hnone : ¬HasWildcardBehindPairs "a\\\\\\*?" := by
    rintro ⟨front, n, s, rest, heq, hlast, hs⟩
    change [.char 'a', backslash, backslash, backslash, .char '*', .char '?'] = _ at heq
    -- The first two of the three have another one behind them, and the last two one in front.
    match front, n with
    | [], _ => cases heq
    | [_], 0 =>
      cases heq
      exact absurd hs (by decide)
    | [_], n + 1 => cases heq
    | [_, b], _ =>
      have hb : backslash = b := (List.cons.inj (List.cons.inj heq).2).1
      exact hlast (congrArg some hb.symm)
    | [_, _, _], _ => cases heq
    | [_, _, _, _], _ => cases heq
    | _ :: _ :: _ :: _ :: _ :: _, _ =>
      have hlength := congrArg List.length heq
      simp only [List.length_append, List.length_cons, List.length_replicate,
        List.length_nil] at hlength
      omega
  have hboth := (read_eq_readBehind "a\\\\\\*?").2.2 hnone "a\\*b"
  have hread : (read "a\\\\\\*?").accepts "a\\*b" = true := by cbv
  exact ⟨hnone, hread, hboth.symm.trans hread⟩

/-- **A star behind two backslashes**: read from left to right it is a wildcard, but the glob has it
as a literal. -/
theorem star_behind_pair : (leftToRight "a\\\\*").accepts "a\\b" = true ∧
    (read "a\\\\*").accepts "a\\b" = false := by
  have hleft : leftToRight "a\\\\*" = [.literal 'a', .literal backslash, .star] := by
    change leftToRight [.char 'a', backslash, backslash, .char '*'] = _
    simp [leftToRight, unescaped, isEscapable, backslash]
  rw [hleft]
  exact ⟨by cbv, by cbv⟩

end Glob

end TreeSieve
