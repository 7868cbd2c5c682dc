import TreeSieve.Proofs.Expression
import TreeSieve.Proofs.GlobLanguage
import TreeSieve.Proofs.NameOrder

/-!
# The regular expression of a rule

The text of a rule's regular expression is put together from the anchor, the tokens of the glob and
the mark for the end of a text. `Glob.readFrom_token` says that the reader of regular expressions
finds one expression in the text of a token, whatever stands before and after it. So nothing in the
text runs together, and the whole is well formed. `Expression.readSet_closed` says that the text of
a set alone is well formed exactly if its ranges are in order, so a bracket stands for itself
exactly where the set that it describes cannot be written.

`Rule.exact_of_line` puts together what a rule matches, by its regular expression, by its tokens
and by the pattern of its line.
-/

namespace TreeSieve

open TreeSieve.Sym

/-! ## The text of a set -/

namespace SetItem

/-- What can come first in the text of a symbol. -/
theorem of_head?_symRegex {s c : Sym} {rest : Text} (h : (symRegex s ++ rest).head? = some c) :
    c = backslash ∨ (c = s ∧ c ∉ specials) := by
  rw [symRegex] at h
  split at h
  · cases h
    exact Or.inl rfl
  · next hs =>
    cases h
    exact Or.inr ⟨rfl, fun hmem => hs (List.contains_iff_mem.2 hmem)⟩

/-- The text of the members that a body describes, the closing bracket, and what follows it. -/
def closed (body rest : Text) : Text := (ofBody body).flatMap regex ++ .char ']' :: rest

variable {s c lo hi : Sym} {body rest : Text}

theorem closed_nil : closed [] rest = .char ']' :: rest := rfl

theorem closed_range : closed (lo :: .char '-' :: hi :: body) rest =
    symRegex lo ++ .char '-' :: (symRegex hi ++ closed body rest) := by
  rw [closed, ofBody, List.flatMap_cons, regex, closed]
  simp only [List.append_assoc, List.cons_append]

theorem closed_single (hno : ∀ hi more, body = .char '-' :: hi :: more → False) :
    closed (s :: body) rest = symRegex s ++ closed body rest := by
  rw [closed, ofBody.eq_2 _ _ hno, List.flatMap_cons, regex, closed, List.append_assoc]

theorem of_head?_closed (h : (closed (s :: body) rest).head? = some c) :
    c = backslash ∨ (c = s ∧ c ∉ specials) := by
  by_cases hrange : ∃ hi more, body = .char '-' :: hi :: more
  · obtain ⟨hi, more, rfl⟩ := hrange
    rw [closed_range] at h
    exact of_head?_symRegex h
  · rw [closed_single fun hi more hbody => hrange ⟨hi, more, hbody⟩] at h
    exact of_head?_symRegex h

/-- No special symbol comes first in the text of a set, except for the backslash. -/
theorem head?_closed_ne (hbody : body ≠ []) (hc : c ∈ specials) (hback : c ≠ backslash) :
    (closed body rest).head? ≠ some c := by
  obtain ⟨s, body, rfl⟩ := List.exists_cons_of_ne_nil hbody
  intro h
  rcases of_head?_closed h with rfl | ⟨-, hnot⟩
  · exact hback rfl
  · exact hnot hc

end SetItem

namespace Expression

open SetItem hiding regex

theorem readMember_symRegex (s : Sym) (rest : Text) :
    readMember (symRegex s ++ rest) = some (s, rest) := by
  rw [symRegex]
  split
  · next h =>
    have hspecials : ∀ c ∈ specials, isAlphanumeric c = false := by decide
    have hs := hspecials s (List.contains_iff_mem.1 h)
    simp [readMember, hs]
  · next h =>
    have hs : s ≠ backslash := by
      rintro rfl
      exact h (by decide)
    simp [readMember, hs]

/-- The members of a set are read back, unless the ends of a range are not in order. -/
theorem readMembers_closed (found : List SetItem) {body : Text} (h : found ≠ [] ∨ body ≠ [])
    (rest : Text) : readMembers found (closed body rest) =
      if (ofBody body).all isOrdered then some (found.reverse ++ ofBody body, rest) else none := by
  -- The reader takes the same ranges and single symbols from the text as `ofBody` from the body.
  induction body using ofBody.induct generalizing found with
  | case1 lo hi body ih =>
    have hlo : (closed (lo :: .char '-' :: hi :: body) rest).head? ≠ some (.char ']') :=
      head?_closed_ne (List.cons_ne_nil _ _) (by decide) (by decide)
    have hhi : (symRegex hi ++ closed body rest).head? ≠ some (.char ']') := by
      intro h
      rcases of_head?_symRegex h with h | ⟨-, h⟩
      · cases h
      · exact h (by decide)
    rw [closed_range] at hlo ⊢
    rw [readMembers_range hlo (readMember_symRegex ..) hhi (readMember_symRegex ..),
      ih _ (Or.inl (List.cons_ne_nil _ _)), ofBody]
    by_cases hord : lo.code ≤ hi.code <;> simp [isOrdered, hord]
  | case2 s body hno ih =>
    have hs : (closed (s :: body) rest).head? ≠ some (.char ']') :=
      head?_closed_ne (List.cons_ne_nil _ _) (by decide) (by decide)
    rw [closed_single hno] at hs ⊢
    -- A hyphen that ends the body is read together with the symbol before it.
    by_cases hhyphen : body = [.char '-']
    · subst hhyphen
      rw [readMembers_hyphen hs (readMember_symRegex ..)]
      rfl
    · have hnext : (closed body rest).head? ≠ some (.char '-') := by
        intro h
        cases body with
        | nil => cases h
        | cons c body =>
          rcases of_head?_closed h with h | ⟨rfl, -⟩
          · cases h
          · cases body with
            | nil => exact hhyphen rfl
            | cons hi body => exact hno hi body rfl
      rw [readMembers_single hs (readMember_symRegex ..) hnext,
        ih _ (Or.inl (List.cons_ne_nil _ _)), ofBody.eq_2 _ _ hno]
      simp [isOrdered]
  | case3 =>
    rw [closed_nil, readMembers_close (h.resolve_right fun h => h rfl)]
    simp [ofBody]

/-- The text of a set is well formed exactly if all ranges in it are in order. -/
theorem readSet_closed (negated : Bool) {body : Text} (hbody : body ≠ []) (rest : Text) :
    readSet (Text.ofChars (if negated then ['^'] else []) ++ closed body rest) =
      if (ofBody body).all isOrdered then some (.set negated (ofBody body), rest) else none := by
  have hread := readMembers_closed [] (Or.inr hbody) rest
  cases negated with
  | true =>
    rw [readSet, if_pos rfl]
    change Option.map _ (readMembers [] (closed body rest)) = _
    rw [hread]
    split <;> rfl
  | false =>
    have hcaret : (closed body rest).head? ≠ some (.char '^') :=
      head?_closed_ne hbody (by decide) (by decide)
    change readSet (closed body rest) = _
    rw [readSet, if_neg hcaret, hread]
    split <;> rfl

/-! ## The text of a token -/

theorem readFrom_regex {outer : List (List Expression)} {es : List Expression} (s : Sym)
    (rest : Text) :
    readFrom outer es (s.regex ++ rest) = readFrom outer (.literal s :: es) rest := by
  rw [Sym.regex]
  split
  · next h =>
    have hescape : ∀ c ∈ regexSpecials, ofEscape c = some (.literal c) := by decide
    exact readFrom_escape rest (hescape s (List.contains_iff_mem.1 h))
  · next h =>
    -- What the reader does not take as a literal symbol always has a backslash before it.
    have hspecial : ∀ c ∈ backslash :: Text.ofChars ['[', '.', '(', ')', '*', '?'] ++ unsupported,
        c ∈ regexSpecials := by decide
    exact readFrom_plain rest fun hs => h (List.contains_iff_mem.2 (hspecial s hs))

end Expression

namespace Glob

open Expression

/-- The sets that come from the text of a bracket. The reader of regular expressions finds these
again. -/
def Token.IsReadable : Token → Prop
  | .set _ items =>
    ∃ body, body ≠ [] ∧ items = SetItem.ofBody body ∧ items.all SetItem.isOrdered = true
  | _ => True

theorem isReadable_of_mem_ofBracket {token : Token} {body : Text} (h : token ∈ ofBracket body) :
    token.IsReadable := by
  rw [ofBracket_eq] at h
  split at h
  · obtain ⟨s, -, rfl⟩ := List.mem_map.1 h
    trivial
  · next hgood =>
    rw [List.mem_singleton] at h
    subst h
    simp only [Bool.or_eq_true, Bool.not_eq_true', not_or, Bool.not_eq_false,
      List.isEmpty_iff] at hgood
    refine ⟨_, ?_, rfl, hgood.2⟩
    intro hbody
    refine hgood.1 ?_
    rw [bracketItems, hbody]
    rfl

theorem isReadable_of_mem_read {token : Token} {pattern : Text} (h : token ∈ read pattern) :
    token.IsReadable := by
  rw [read, readFrom_eq, List.mem_flatMap] at h
  obtain ⟨piece, -, h⟩ := h
  cases piece with
  | bracket body => exact isReadable_of_mem_ofBracket h
  | run t =>
    obtain ⟨s, -, rfl⟩ := List.mem_map.1 h
    trivial
  | _ =>
    rw [List.mem_singleton.1 h]
    trivial

/-- The regular expression of a token. -/
def Token.expression : Token → Expression
  | .literal s => .literal s
  | .set negated items => .set negated items
  | .any => .any
  | .star => .star (.set true [.single slash])
  | .deep => .optional (.group (inSequence [.literal slash, .star .any]))

/-- The text of a token is read back as one expression, whatever stands before and after it. -/
theorem readFrom_token {token : Token} (htoken : token.IsReadable) {outer : List (List Expression)}
    {es : List Expression} (rest : Text) :
    Expression.readFrom outer es (token.regex ++ rest) =
      Expression.readFrom outer (token.expression :: es) rest := by
  cases token with
  | literal s => exact readFrom_regex s rest
  | any => exact Expression.readFrom_any rest
  | set negated items =>
    obtain ⟨body, hbody, rfl, hordered⟩ := htoken
    have hset := readSet_closed negated hbody rest
    rw [if_pos hordered] at hset
    have htext : Token.regex (.set negated (SetItem.ofBody body)) ++ rest =
        .char '[' :: (Text.ofChars (if negated then ['^'] else []) ++
          SetItem.closed body rest) := by
      cases negated <;> simp [Token.regex, Text.ofChars, SetItem.closed]
    rw [htext]
    exact readFrom_set hset
  | star =>
    have hset := readSet_closed true (List.cons_ne_nil slash []) (.char '*' :: rest)
    exact (readFrom_set hset).trans (readFrom_star rest rfl)
  | deep =>
    calc Expression.readFrom outer es (Token.deep.regex ++ rest)
        = Expression.readFrom (es :: outer) []
            (slash.regex ++ .char '.' :: .char '*' :: .char ')' :: .char '?' :: rest) :=
          readFrom_open (by rintro ⟨⟩)
      _ = Expression.readFrom (es :: outer) [.literal slash]
            (.char '.' :: .char '*' :: .char ')' :: .char '?' :: rest) := readFrom_regex slash _
      _ = Expression.readFrom (es :: outer) [.any, .literal slash]
            (.char '*' :: .char ')' :: .char '?' :: rest) := Expression.readFrom_any _
      _ = Expression.readFrom (es :: outer) [.star .any, .literal slash]
            (.char ')' :: .char '?' :: rest) := readFrom_star _ rfl
      _ = Expression.readFrom outer (.group (inSequence [.literal slash, .star .any]) :: es)
            (.char '?' :: rest) := readFrom_close _
      _ = Expression.readFrom outer (Token.deep.expression :: es) rest := readFrom_optional _ rfl

theorem readFrom_regex_append {g : Glob} (hg : ∀ token ∈ g, token.IsReadable)
    {outer : List (List Expression)} {es : List Expression} (rest : Text) :
    Expression.readFrom outer es (g.regex ++ rest) =
      Expression.readFrom outer ((g.map Token.expression).reverse ++ es) rest := by
  induction g generalizing es with
  | nil => rfl
  | cons token g ih =>
    obtain ⟨htoken, hg⟩ := List.forall_mem_cons.1 hg
    rw [regex, List.flatMap_cons, List.append_assoc, readFrom_token htoken]
    refine (ih hg).trans ?_
    rw [List.map_cons, List.reverse_cons, List.append_assoc, List.singleton_append]

/-! ## What the expressions match -/

theorem Token.expression_matches {token : Token} {p rest : Text} :
    token.expression.Matches p rest ↔ token.Matches p := by
  cases token with
  | literal s => exact literal_iff
  | set negated items => exact set_iff
  | any => exact any_iff
  | star =>
    have hone : ∀ c : Sym, [SetItem.single slash].any (SetItem.contains c) ≠ true ↔ c ≠ slash := by
      intro c
      simp only [List.any_cons, List.any_nil, Bool.or_false, SetItem.contains, ne_eq, beq_iff_eq]
      exact not_congr ⟨code_injective, congrArg code⟩
    have hset : ∀ p rest, Expression.Matches (.set true [.single slash]) p rest ↔
        ∃ c, p = [c] ∧ c ≠ slash := by simp only [set_iff, hone, implies_true]
    exact (star_iff hset).trans List.forall_mem_ne'
  | deep =>
    have hany : ∀ {p rest}, Expression.Matches (.star .any) p rest ↔ lineFeed ∉ p :=
      (star_iff fun _ _ => any_iff).trans List.forall_mem_ne'
    simp only [expression, inSequence, List.foldr, optional_iff, group_iff, sequence_iff,
      literal_iff, hany, empty_iff, Token.Matches]
    simp

/-- The expressions of tokens up to the end of a text match like the tokens. -/
theorem inSequence_matches {g : Glob} {part rest : Text} :
    (inSequence (g.map Token.expression ++ [textEnd])).Matches part rest ↔
      rest = [] ∧ Concatenates Token.Matches g part := by
  induction g generalizing part with
  | nil =>
    simp only [List.map_nil, List.nil_append, inSequence, List.foldr, sequence_iff, textEnd_iff,
      empty_iff, Concatenates.nil_iff]
    constructor
    · rintro ⟨p, q, rfl, ⟨rfl, hrest⟩, rfl⟩
      exact ⟨hrest, rfl⟩
    · rintro ⟨rfl, rfl⟩
      exact ⟨[], [], rfl, ⟨rfl, rfl⟩, rfl⟩
  | cons token g ih =>
    rw [List.map_cons, List.cons_append, inSequence, List.foldr_cons, ← inSequence, sequence_iff,
      Concatenates.cons_iff]
    simp only [Token.expression_matches, ih]
    constructor
    · rintro ⟨p, q, hpart, hp, hrest, hq⟩
      exact ⟨hrest, p, q, hpart, hp, hq⟩
    · rintro ⟨hrest, p, q, hpart, hp, hq⟩
      exact ⟨p, q, hpart, hp, hrest, hq⟩

/-- The text of tokens up to the end of a text is well formed, and it means what the tokens do. -/
theorem exists_read_regex {g : Glob} (hg : ∀ token ∈ g, token.IsReadable) :
    ∃ e, Expression.read (g.regex ++ Text.ofChars ['\\', 'Z']) = some e ∧
      ∀ t, e.MatchesStart t ↔ g.accepts t = true := by
  refine ⟨inSequence (g.map Token.expression ++ [textEnd]), ?_, fun t => ?_⟩
  · rw [Expression.read, readFrom_regex_append hg, List.append_nil]
    have hend : ∀ es, Expression.readFrom [] es (Text.ofChars ['\\', 'Z']) =
        some (inSequence (es.reverse ++ [textEnd])) := fun es =>
      (readFrom_escape [] rfl).trans ((readFrom_nil _).trans (by rw [List.reverse_cons]))
    rw [hend, List.reverse_reverse]
  · rw [accepts_iff, MatchesStart]
    simp only [inSequence_matches]
    constructor
    · rintro ⟨part, rest, rfl, rfl, hpart⟩
      rwa [List.append_nil]
    · intro h
      exact ⟨t, [], (List.append_nil t).symm, rfl, h⟩

end Glob

/-! ## The rule of a line -/

namespace Rule

theorem accepts_iff {r : Rule} {path : Text} : r.accepts path = true ↔
    ∃ t, path = r.anchor ++ t ∧ r.glob.accepts t = true := by
  rw [accepts]
  constructor
  · intro h
    split at h
    · next t hprefix => exact ⟨t, (List.isPrefixOf?_eq_some_iff_append_eq.1 hprefix).symm, h⟩
    · cases h
  · rintro ⟨t, rfl, ht⟩
    rwa [List.isPrefixOf?_eq_some_iff_append_eq.2 rfl]

/-- The anchor of a rule as literal tokens, and its glob. -/
def tokens (r : Rule) : Glob := r.anchor.map .literal ++ r.glob

theorem regex_eq (r : Rule) : r.regex = r.tokens.regex ++ Text.ofChars ['\\', 'Z'] := by
  rw [regex, tokens, Glob.regex, Glob.regex, List.flatMap_append, List.flatMap_map]
  rfl

theorem accepts_tokens {r : Rule} {path : Text} : r.tokens.accepts path = r.accepts path := by
  rw [Bool.eq_iff_iff, accepts_iff, Glob.accepts_iff, tokens, Concatenates.append_iff]
  simp only [Glob.matches_literals, Glob.accepts_iff]
  constructor
  · rintro ⟨_, t, rfl, rfl, ht⟩
    exact ⟨t, rfl, ht⟩
  · rintro ⟨t, rfl, ht⟩
    exact ⟨_, t, rfl, rfl, ht⟩

theorem of_ofLine? {directory line : Text} {r : Rule} (h : ofLine? directory line = some r) :
    r.anchor = Path.trimmed directory ∧ r.glob = Glob.read (pattern (split line).2) := by
  rw [ofLine?] at h
  split at h
  · cases h
  · split at h
    · cases h
    · next hsplit =>
      cases h
      rw [hsplit]
      exact ⟨rfl, rfl⟩

/-- Behind the declaring directory, the pattern of the line says what the rule matches. -/
theorem accepts_iff_describes {directory line : Text} {r : Rule}
    (h : ofLine? directory line = some r) (path : Text) : r.accepts path = true ↔
      ∃ t, path = Path.trimmed directory ++ t ∧ Glob.Describes (pattern (split line).2) t := by
  obtain ⟨hanchor, hglob⟩ := of_ofLine? h
  simp only [accepts_iff, hanchor, hglob, Glob.accepts_read_iff]

/-- **Exactness of the rule of a line.** The text of its regular expression is well formed, and
matches at the beginning of the paths that the rule matches. These are the path of the declaring
directory, without slashes at its end, followed by a text that the pattern of the line
describes. -/
theorem exact_of_line {directory line : Text} {r : Rule}
    (h : ofLine? directory line = some r) :
    (∃ e, Expression.read r.regex = some e ∧ ∀ path, e.MatchesStart path ↔ r.accepts path = true) ∧
      ∀ path, r.accepts path = true ↔
        ∃ t, path = Path.trimmed directory ++ t ∧ Glob.Describes (pattern (split line).2) t := by
  obtain ⟨-, hglob⟩ := of_ofLine? h
  constructor
  · have hreadable : ∀ token ∈ r.tokens, token.IsReadable := by
      intro token htoken
      rcases List.mem_append.1 htoken with htoken | htoken
      · obtain ⟨s, -, rfl⟩ := List.mem_map.1 htoken
        trivial
      · rw [hglob] at htoken
        exact Glob.isReadable_of_mem_read htoken
    obtain ⟨e, hread, hmatches⟩ := Glob.exists_read_regex hreadable
    rw [regex_eq]
    refine ⟨e, hread, fun path => ?_⟩
    rw [hmatches, accepts_tokens]
  · exact accepts_iff_describes h

/-- The rule that `*.[oa]` makes in `/p` matches an object file further below. -/
theorem exact_of_line_object_files :
    (∃ e, Expression.read "/p(/.*)?/[^/]*\\.[oa](/.*)?\\Z" = some e ∧
      e.MatchesStart "/p/lib/main.o") ∧
      ∃ t, ("/p/lib/main.o" : Text) = Path.trimmed "/p/" ++ t ∧
        Glob.Describes "/**/*.[oa]/**" t := by
  have hline : ofLine? "/p/" "*.[oa]" = some
      ⟨"*.[oa]", "/p", false, false, [.deep, .literal slash, .star, .literal '.',
        .set false [.single 'o', .single 'a'], .deep]⟩ := by cbv
  obtain ⟨⟨e, hread, hmatches⟩, hpath⟩ := exact_of_line hline
  exact ⟨⟨e, hread, (hmatches "/p/lib/main.o").2 (by cbv)⟩, (hpath "/p/lib/main.o").1 (by cbv)⟩

end Rule

end TreeSieve
