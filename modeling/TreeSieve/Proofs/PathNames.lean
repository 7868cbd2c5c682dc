import TreeSieve.Proofs.FileTree

/-!
# The names of a path

How the operations on paths act on the names that a path consists of. Joining a name to a path puts
it behind the names of the path (`names_join`) and changes nothing in front (`anchor_join`); the
printed form of a path has the names of the path (`names_plain`).
-/

namespace TreeSieve

open TreeSieve.Sym

/-! ## Pieces between slashes -/

namespace Text

theorem pieces_ne_nil (sep : Sym) (t : Text) : pieces sep t ≠ [] := by
  induction t with
  | nil => simp [pieces]
  | cons c s ih =>
    rw [pieces]
    split
    · simp
    · split <;> simp

theorem pieces_append_cons (sep : Sym) (s t : Text) :
    pieces sep (s ++ sep :: t) = pieces sep s ++ pieces sep t := by
  induction s with
  | nil => simp [pieces]
  | cons c s ih =>
    rw [List.cons_append, pieces, pieces, ih]
    by_cases hc : c = sep
    · simp [hc]
    · rw [if_neg hc, if_neg hc]
      cases h : pieces sep s with
      | nil => exact absurd h (pieces_ne_nil sep s)
      | cons p ps => rfl

theorem pieces_of_not_mem {sep : Sym} {t : Text} (h : sep ∉ t) : pieces sep t = [t] := by
  induction t with
  | nil => rfl
  | cons c s ih =>
    rw [List.mem_cons, not_or] at h
    rw [pieces, if_neg (Ne.symm h.1), ih h.2]

theorem not_mem_of_mem_pieces {sep : Sym} {t p : Text} (h : p ∈ pieces sep t) : sep ∉ p := by
  induction t generalizing p with
  | nil =>
    obtain rfl : p = [] := by simpa [pieces] using h
    simp
  | cons c s ih =>
    rw [pieces] at h
    by_cases hc : c = sep
    · rw [if_pos hc] at h
      rcases List.mem_cons.1 h with rfl | h
      · simp
      · exact ih h
    · rw [if_neg hc] at h
      cases hp : pieces sep s with
      | nil => exact absurd hp (pieces_ne_nil sep s)
      | cons q qs =>
        rw [hp] at h
        rcases List.mem_cons.1 h with rfl | h
        · rw [List.mem_cons, not_or]
          exact ⟨Ne.symm hc, ih (hp ▸ List.mem_cons_self)⟩
        · exact ih (hp ▸ List.mem_cons_of_mem _ h)

/-- The pieces of texts without the separator, when these are joined with it. -/
theorem pieces_joinWith {sep : Sym} {ts : List Text} (hne : ts ≠ []) (h : ∀ t ∈ ts, sep ∉ t) :
    pieces sep (joinWith [sep] ts) = ts := by
  induction ts with
  | nil => exact absurd rfl hne
  | cons t ts ih =>
    cases ts with
    | nil => simpa [joinWith] using pieces_of_not_mem (h t List.mem_cons_self)
    | cons u us =>
      have hj : joinWith [sep] (t :: u :: us) = t ++ sep :: joinWith [sep] (u :: us) := by
        simp [joinWith, List.intercalate]
      rw [hj, pieces_append_cons, pieces_of_not_mem (h t List.mem_cons_self),
        ih (by simp) (fun v hv => h v (List.mem_cons_of_mem _ hv))]
      rfl

end Text

namespace Path

/-! ## Joining a name -/

section Join

variable {name : Text} (hname : IsName name)

include hname in
theorem join_isName (p : Text) :
    join p name = if p = [] ∨ p.getLast? = some slash then p ++ name else p ++ slash :: name := by
  have hrel : isAbsolute name = false := by
    obtain ⟨hne, -, -, hs, -⟩ := hname
    cases name with
    | nil => exact absurd rfl hne
    | cons c t =>
      have : slash ≠ c := fun h => hs (h ▸ List.mem_cons_self)
      simpa [isAbsolute] using Ne.symm this
  rw [join, hrel]
  rfl

include hname in
/-- Joined to a path, a name comes last. -/
theorem filter_pieces_join (p : Text) (f : Text → Bool) (h0 : f [] = false) (h1 : f name = true) :
    (Text.pieces slash (join p name)).filter f = (Text.pieces slash p).filter f ++ [name] := by
  have hp : Text.pieces slash name = [name] := Text.pieces_of_not_mem hname.2.2.2.1
  rw [join_isName hname]
  by_cases hnil : p = []
  · simp [hnil, hp, h0, h1, Text.pieces]
  by_cases hlast : p.getLast? = some slash
  · obtain ⟨q, rfl⟩ := List.getLast?_eq_some_iff.1 hlast
    have hq : Text.pieces slash (q ++ [slash]) = Text.pieces slash q ++ [[]] :=
      Text.pieces_append_cons slash q []
    rw [if_pos (Or.inr hlast), List.append_assoc, List.singleton_append,
      Text.pieces_append_cons, hp, hq]
    simp [h0, h1]
  · rw [if_neg (by tauto), Text.pieces_append_cons, hp]
    simp [h1]

include hname in
theorem names_join (p : Text) : names (join p name) = names p ++ [name] :=
  filter_pieces_join hname p _ (by simp) (by simp [hname.1, hname.2.1])

include hname in
theorem getLast?_join (p : Text) : (join p name).getLast? ≠ some slash := by
  have hl : name.getLast? ≠ some slash := fun h => hname.2.2.2.1 (List.mem_of_getLast? h)
  rw [join_isName hname]
  split
  · rwa [List.getLast?_append_of_ne_nil _ hname.1]
  · rwa [List.getLast?_append_of_ne_nil _ (by simp), List.getLast?_cons_of_ne_nil hname.1]

include hname in
/-- The steps to an entry of a directory are those to the directory and one more. -/
theorem steps_join (p : Text) : Disk.steps (join p name) =
    (Text.pieces slash p).filter (· ≠ []) ++ [name] := by
  rw [Disk.steps, if_neg (getLast?_join hname p)]
  exact filter_pieces_join hname p _ (by simp) (by simpa using hname.1)

theorem trimmed_of_getLast? {p : Text} (h : p.getLast? ≠ some slash) : trimmed p = p := by
  rw [trimmed, Text.dropEndWhile, List.dropWhile_eq_self_iff.2, List.reverse_reverse]
  intro hl hs
  refine h ?_
  rw [List.getLast?_eq_head?_reverse, List.head?_eq_getElem?, List.getElem?_eq_getElem hl]
  simpa using hs

include hname in
theorem trimmed_join (p : Text) : trimmed (join p name) = join p name :=
  trimmed_of_getLast? (getLast?_join hname p)

include hname in
/-- The key of a directory is shorter than the paths of its entries. -/
theorem length_trimmed_lt_join (p : Text) : (trimmed p).length < (join p name).length := by
  have h1 : (trimmed p).length ≤ p.length := by
    have := (List.dropWhile_sublist (p := (· = slash)) (l := p.reverse)).length_le
    simpa [trimmed, Text.dropEndWhile] using this
  have h2 := List.length_pos_of_ne_nil hname.1
  rw [join_isName hname]
  split <;> simp only [List.length_append, List.length_cons] <;> omega

include hname in
theorem isAbsolute_join (p : Text) : isAbsolute (join p name) = isAbsolute p := by
  have hrel : name.head? ≠ some slash := fun h => hname.2.2.2.1 (List.mem_of_head? h)
  rw [join_isName hname]
  cases p with
  | nil => simpa [isAbsolute] using hrel
  | cons c q => split <;> rfl

include hname in
/-- A name behind a path does not change how many slashes the path begins with. -/
theorem anchor_join (p : Text) : anchor (join p name) = anchor p := by
  have hhead : name.takeWhile (· = slash) = [] := by
    cases name with
    | nil => rfl
    | cons c t =>
      have hc : c ≠ slash := fun h => hname.2.2.2.1 (h ▸ List.mem_cons_self)
      exact List.takeWhile_cons_of_neg (by simpa using hc)
  have hfront : (join p name).takeWhile (· = slash) = p.takeWhile (· = slash) := by
    rw [join_isName hname]
    split
    · rw [List.takeWhile_append, hhead, List.append_nil]
      split
      · next hlen => exact ((List.takeWhile_prefix _).eq_of_length hlen).symm
      · rfl
    · next hp =>
      rw [not_or] at hp
      rw [List.takeWhile_append, if_neg]
      intro hlen
      have hall : p.takeWhile (· = slash) = p := (List.takeWhile_prefix _).eq_of_length hlen
      have hlast := List.getLast_mem hp.1
      rw [List.takeWhile_eq_self_iff] at hall
      apply hp.2
      rw [List.getLast?_eq_some_getLast hp.1]
      simpa using hall _ hlast
  rw [anchor, anchor, hfront]

end Join

/-! ## Printed forms -/

theorem isName_of_mem_names {p name : Text} (h : name ∈ names p) :
    name ≠ [] ∧ name ≠ here ∧ slash ∉ name := by
  obtain ⟨hpiece, hname⟩ := List.mem_filter.1 h
  simp only [Bool.and_eq_true, decide_eq_true_eq] at hname
  exact ⟨hname.1, hname.2, Text.not_mem_of_mem_pieces hpiece⟩

theorem names_slash_cons (t : Text) : names (slash :: t) = names t := by
  simp [names, Text.pieces]

theorem names_joinWith {ns : List Text} (h : ∀ n ∈ ns, n ≠ [] ∧ n ≠ here ∧ slash ∉ n) :
    names (Text.joinWith [slash] ns) = ns := by
  by_cases hne : ns = []
  · subst hne
    rfl
  · rw [names, Text.pieces_joinWith hne fun n hn => (h n hn).2.2]
    apply List.filter_eq_self.2
    intro n hn
    simp [(h n hn).1, (h n hn).2.1]

theorem anchor_eq (p : Text) : anchor p = [] ∨ anchor p = [slash] ∨ anchor p = [slash, slash] := by
  rw [anchor]
  split
  · exact Or.inl rfl
  · exact Or.inr (Or.inr rfl)
  · exact Or.inr (Or.inl rfl)

theorem names_ofNames (p : Text) {ns : List Text}
    (h : ∀ n ∈ ns, n ≠ [] ∧ n ≠ here ∧ slash ∉ n) : names (ofNames (anchor p) ns) = ns := by
  have hfront : names (anchor p ++ Text.joinWith [slash] ns) = ns := by
    rcases anchor_eq p with ha | ha | ha <;> rw [ha]
    · exact names_joinWith h
    · exact (names_slash_cons _).trans (names_joinWith h)
    · exact (names_slash_cons _).trans ((names_slash_cons _).trans (names_joinWith h))
  rw [ofNames]
  split
  · next hnil =>
    rw [hnil] at hfront
    rw [← hfront]
    rfl
  · exact hfront

/-- The printed form of a path has the names of the path. -/
theorem names_plain (p : Text) : names (plain p) = names p :=
  names_ofNames p fun _ => isName_of_mem_names

end Path

end TreeSieve
