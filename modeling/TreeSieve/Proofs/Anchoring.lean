import TreeSieve.Proofs.Below
import TreeSieve.Proofs.LoopInvariant
import TreeSieve.Proofs.RuleRegex

/-!
# How far a rule reaches

A rule is anchored to the path of the directory that declares it, but the anchor does not end in a
slash. The slash that has to follow comes from the pattern of the rule. A pattern begins with a
slash, and the only thing that can take this slash away is a `/**`, which also stands for nothing.
So a rule stays inside its directory exactly if what follows the `/**`s at the front of its pattern
does (`Rule.accepts_inside_iff`), and it does so wherever a slash or nothing at all follows them.
The rule `/**foo` of `/project` is one that does not stay inside: it matches `/projectfoo`, which is
a sibling of the directory.

No walk notices this. A rule that is on the stack while the entries of a directory are judged was
declared in a directory in which all their paths lie (`Traversal.isInside_of_mem_rules`).
-/

namespace TreeSieve

open TreeSieve.Sym

/-- A path is that of a directory, given without slashes at its end, or one of a place in it. -/
def Path.IsInside (directory path : Text) : Prop :=
  ∃ t, path = directory ++ t ∧ (t = [] ∨ t.head? = some slash)

namespace Path

theorem isInside_nil_iff {t : Text} : IsInside [] t ↔ t = [] ∨ t.head? = some slash := by
  simp [IsInside]

theorem isInside_append_iff {directory t : Text} : IsInside directory (directory ++ t) ↔
    IsInside [] t := by
  simp [IsInside]

theorem isInside_self (directory : Text) : IsInside directory directory :=
  ⟨[], (List.append_nil _).symm, Or.inl rfl⟩

theorem isInside_slash (directory t : Text) : IsInside directory (directory ++ slash :: t) :=
  ⟨slash :: t, rfl, Or.inr rfl⟩

theorem IsInside.trans {a b c : Text} (hab : IsInside a b) (hbc : IsInside b c) : IsInside a c := by
  obtain ⟨t, rfl, ht⟩ := hab
  obtain ⟨u, rfl, hu⟩ := hbc
  refine ⟨t ++ u, List.append_assoc .., ?_⟩
  rcases ht with rfl | ht
  · exact hu
  · obtain ⟨t, rfl⟩ := List.head?_eq_some_iff.1 ht
    exact Or.inr rfl

end Path

namespace Glob

/-! ## The front of a pattern -/

/-- What is left of a pattern behind the `/**`s at its front. -/
def afterDeep : Text → Text
  | .char '/' :: .char '*' :: .char '*' :: rest => afterDeep rest
  | pattern => pattern

/-- The `/**`s at the front of a pattern do not matter for whether it describes only texts that are
empty or begin with a slash, since they can stand for nothing. -/
theorem isInside_of_read_iff (pattern : Text) :
    (∀ t, (read pattern).accepts t = true → Path.IsInside [] t) ↔
      ∀ t, (read (afterDeep pattern)).accepts t = true → Path.IsInside [] t := by
  fun_induction afterDeep pattern with
  | case1 rest ih =>
    rw [← ih, read_deep]
    simp only [accepts_cons_iff]
    constructor
    · intro h t ht
      exact h t ⟨[], t, rfl, Or.inl rfl, ht⟩
    · rintro h _ ⟨p, q, rfl, rfl | ⟨u, rfl, -⟩, hq⟩
      · exact h q hq
      · exact Path.isInside_slash [] (u ++ q)
  | case2 => exact Iff.rfl

/-- Behind the `/**`s at the front of a pattern there is no other. -/
theorem afterDeep_ne (pattern rest : Text) :
    afterDeep pattern ≠ .char '/' :: .char '*' :: .char '*' :: rest := by
  fun_induction afterDeep pattern with
  | case1 _ ih => exact ih
  | case2 t h => exact fun heq => h rest heq

/-- A slash that begins no `/**` stands for itself. -/
theorem isInside_of_afterDeep {pattern : Text}
    (h : afterDeep pattern = [] ∨ (afterDeep pattern).head? = some slash) {t : Text}
    (ht : (read pattern).accepts t = true) : Path.IsInside [] t := by
  revert t
  rw [isInside_of_read_iff]
  intro t ht
  have hne := afterDeep_ne pattern
  generalize afterDeep pattern = rest at h hne ht
  rcases h with rfl | h
  · rw [read, readFrom, accepts, List.isEmpty_iff] at ht
    exact Path.isInside_nil_iff.2 (Or.inl ht)
  · obtain ⟨rest, rfl⟩ := List.head?_eq_some_iff.1 h
    rw [read_slash_cons fun after hrest => hne after (by rw [hrest]), accepts_cons_iff] at ht
    obtain ⟨p, q, rfl, rfl, -⟩ := ht
    exact Path.isInside_slash [] q

end Glob

namespace Rule

/-- **How far a rule reaches.** The paths that the rule of a line matches all lie in the declaring
directory exactly if what is behind the `/**`s at the front of its pattern describes only texts that
are empty or begin with a slash. That is so if nothing or a slash is behind them. -/
theorem accepts_inside_iff {directory line : Text} {r : Rule}
    (h : ofLine? directory line = some r) :
    ((∀ path, r.accepts path = true → Path.IsInside (Path.trimmed directory) path) ↔
      ∀ t, Glob.Describes (Glob.afterDeep (pattern (split line).2)) t → Path.IsInside [] t) ∧
    (Glob.afterDeep (pattern (split line).2) = [] ∨
        (Glob.afterDeep (pattern (split line).2)).head? = some slash →
      ∀ path, r.accepts path = true → Path.IsInside (Path.trimmed directory) path) := by
  obtain ⟨hanchor, hglob⟩ := of_ofLine? h
  have hall : (∀ path, r.accepts path = true → Path.IsInside (Path.trimmed directory) path) ↔
      ∀ t, (Glob.read (pattern (split line).2)).accepts t = true → Path.IsInside [] t := by
    simp only [accepts_iff, hanchor, hglob]
    constructor
    · intro hpath t ht
      exact Path.isInside_append_iff.1 (hpath _ ⟨t, rfl, ht⟩)
    · rintro ht _ ⟨t, rfl, haccepts⟩
      exact Path.isInside_append_iff.2 (ht t haccepts)
  rw [hall]
  refine ⟨?_, fun hfront t => Glob.isInside_of_afterDeep hfront⟩
  rw [Glob.isInside_of_read_iff]
  simp only [Glob.accepts_read_iff]

/-- The rule `foo` of `/project` does not match the sibling `/projectfoo`. -/
theorem accepts_inside_iff_plain_name :
    ofLine? "/project" "foo" =
        some ⟨"foo", "/project", false, false, [.deep, .literal slash, .literal 'f', .literal 'o',
          .literal 'o', .deep]⟩ ∧
      accepts ⟨"foo", "/project", false, false, [.deep, .literal slash, .literal 'f', .literal 'o',
          .literal 'o', .deep]⟩ "/projectfoo" ≠ true := by
  have hline : ofLine? "/project" "foo" =
      some ⟨"foo", "/project", false, false, [.deep, .literal slash, .literal 'f', .literal 'o',
        .literal 'o', .deep]⟩ := by cbv
  refine ⟨hline, fun haccepts => ?_⟩
  obtain ⟨t, ht, hinside⟩ := (accepts_inside_iff hline).2 (Or.inr (by cbv)) _ haccepts
  have hfoo : t = "foo" := by
    have hsplit : ("/projectfoo" : Text) = Path.trimmed "/project" ++ ("foo" : Text) := by cbv
    rw [hsplit] at ht
    exact (List.append_cancel_left ht).symm
  subst hfoo
  rcases hinside with hnil | hslash
  · cases hnil
  · cases hslash

/-- **A rule that reaches a sibling**: `/**foo` of `/project` matches `/projectfoo`, which does not
lie in `/project`. -/
theorem sibling_accepted : ∃ r, ofLine? "/project" "/**foo" = some r ∧
    r.accepts "/projectfoo" = true ∧ ¬Path.IsInside "/project" "/projectfoo" := by
  refine ⟨⟨"/**foo", "/project", false, false, [.deep, .literal 'f', .literal 'o', .literal 'o',
    .deep]⟩, by cbv, by cbv, ?_⟩
  have hsplit : ("/projectfoo" : Text) = "/project" ++ ("foo" : Text) := by cbv
  rw [hsplit, Path.isInside_append_iff, Path.isInside_nil_iff]
  decide

end Rule

namespace Traversal

variable {o : Options} {d : Disk}

/-! ## Rules on the stack -/

/-- The rules of a rule file are read off lines in the directory that holds it. -/
theorem exists_declared_of_ruleFile {f : Frame} {found : Option (List Rule × Text)}
    (h : ruleFile o d f = .ok found) :
    ∃ lines, (found.map (·.1)).getD [] = RuleStack.declared f.absolute lines := by
  unfold ruleFile at h
  split at h
  · cases h
    exact ⟨[], rfl⟩
  · split at h
    · cases h
      exact ⟨[], rfl⟩
    · simp only at h
      split at h
      · split at h
        · next content _ =>
          cases h
          exact ⟨RuleStack.fileLines content, rfl⟩
        · cases h
      · cases h
        exact ⟨[], rfl⟩

theorem anchor_of_mem_declaredIn {f : Frame} {r : Rule} (h : r ∈ declaredIn o d f) :
    r.anchor = f.key := by
  have hdeclared : ∀ lines, ∀ r ∈ RuleStack.declared f.absolute lines, r.anchor = f.key := by
    intro lines r hr
    obtain ⟨line, -, hline⟩ := List.mem_filterMap.1 hr
    exact (Rule.of_ofLine? hline).1
  rcases List.mem_append.1 h with hown | hseed
  · unfold ownRules at hown
    split at hown
    · next found hfile =>
      obtain ⟨lines, hlines⟩ := exists_declared_of_ruleFile hfile
      rw [hlines] at hown
      exact hdeclared lines r (List.mem_reverse.1 hown)
    · cases hown
  · unfold seeds at hseed
    split at hseed
    · exact hdeclared _ r (List.mem_reverse.1 hseed)
    · cases hseed

/-- A subdirectory lies in its directory. -/
theorem isInside_key_join {p name : Text} (hname : Path.IsName name)
    (hp : Path.isAbsolute p = true) :
    Path.IsInside (Path.trimmed p) (Path.trimmed (Path.join p name)) := by
  obtain ⟨slashes, hsplit, hslashes⟩ := Path.exists_trimmed_append p
  rw [Path.trimmed_join hname, Path.join_isName hname]
  split
  · next hend =>
    cases slashes with
    -- A path that ends in a slash is not its own trimmed form.
    | nil =>
      rw [List.append_nil] at hsplit
      rcases hend with hnil | hlast
      · rw [hnil] at hp
        cases hp
      · rw [hsplit] at hlast
        exact absurd hlast (Path.getLast?_trimmed p)
    | cons s slashes =>
      obtain rfl := hslashes s List.mem_cons_self
      conv => arg 2; rw [hsplit, List.append_assoc]
      exact Path.isInside_slash _ _
  · next hend =>
    rw [Path.trimmed_of_getLast? (not_or.1 hend).2]
    exact Path.isInside_slash p name

/-- The directories of levels lie in the directories of the levels behind them. -/
theorem Nested.isInside {root : Text} {l : Level} {ls : List Level}
    (h : Nested o d root (l :: ls)) :
    Path.isAbsolute l.frame.absolute = true ∧
      ∀ m ∈ l :: ls, Path.IsInside m.frame.key l.frame.key := by
  generalize hls : l :: ls = levels at h
  induction h generalizing l ls with
  | nil => cases hls
  | root =>
    cases hls
    exact ⟨Path.isAbsolute_absolute d.isAbsolute_workingPath root,
      List.forall_mem_singleton.2 (Path.isInside_self _)⟩
  | @inner above _ f _ _ hf _ ih =>
    cases hls
    obtain ⟨habs, hinside⟩ := ih rfl
    obtain ⟨name, hname, hjoin⟩ := hf.absolute
    have hstep : Path.IsInside above.frame.key f.key := by
      rw [Frame.key, Frame.key, hjoin]
      exact isInside_key_join hname habs
    refine ⟨?_, List.forall_mem_cons.2 ⟨Path.isInside_self _, fun m hm => ?_⟩⟩
    · have hopened : f.opened.absolute = f.absolute := rfl
      rw [hopened, hjoin, Path.isAbsolute_join hname, habs]
    · exact (hinside m hm).trans hstep

/-- The deepest level belongs to the first entered directory in the queue. -/
theorem Stacked.find?_entered {root : Text} {t : Traversal} {l : Level} {ls : List Level}
    (h : Stacked o d t (l :: ls)) (hn : Nested o d root (l :: ls)) :
    t.queue.find? (·.entered) = some l.frame := by
  have hwaiting : l.waiting.find? (·.entered) = none :=
    List.find?_eq_none.2 fun g hg => by simp [(hn.ready g hg).entered]
  rw [h.queue, List.flatMap_cons, Level.frames, List.find?_append, List.find?_append, hwaiting,
    Option.none_or, List.find?_cons_of_pos (hn.entered l List.mem_cons_self), Option.some_or]

/-- A directory that is entered is the deepest level then. -/
theorem exists_levels_enter (hd : d.WellFormed) (root : Text) {n : Nat} {f : Frame}
    {rest : List Frame} (hq : (loopHead o d root n).queue = f :: rest) (hf : f.entered = false) :
    ∃ waiting ls, Nested o d root (⟨waiting, f.opened⟩ :: ls) ∧
      Stacked o d (loopHead o d root (n + 1)) (⟨waiting, f.opened⟩ :: ls) := by
  obtain ⟨ls, hnested, hstacked⟩ := exists_levels (o := o) hd root n
  obtain ⟨frames, hready, -, hqueue, -⟩ := enter_snd (o := o) hd (loopHead o d root n) f rest
  rw [← step_of_waiting hq hf, ← loopHead_succ] at hqueue
  cases ls with
  | nil =>
    rw [hstacked.queue] at hqueue
    exact absurd hqueue.symm (List.append_ne_nil_of_right_ne_nil _ (List.cons_ne_nil _ _))
  | cons l ls =>
    have hframes : frames.find? (·.entered) = none :=
      List.find?_eq_none.2 fun g hg => by simp [(hready g hg).entered]
    have hfind := hstacked.find?_entered hnested
    rw [hqueue, List.find?_append, hframes, Option.none_or,
      List.find?_cons_of_pos f.opened_entered] at hfind
    obtain ⟨waiting, frame⟩ := l
    obtain rfl : frame = f.opened := (Option.some.inj hfind).symm
    exact ⟨waiting, ls, hnested, hstacked⟩

/-- **No rule is asked about a path outside its directory.** While the entries of a directory are
judged, every rule on the stack was declared in a directory in which all their paths lie. -/
theorem isInside_of_mem_rules (hd : d.WellFormed) (root : Text) {n : Nat} {f : Frame}
    {rest : List Frame} (hq : (loopHead o d root n).queue = f :: rest) (hf : f.entered = false)
    {r : RankedRule} (hr : r ∈ (loopHead o d root (n + 1)).rules.rules) (name : Text) :
    Path.IsInside r.rule.anchor (f.key ++ slash :: name) := by
  obtain ⟨waiting, ls, hnested, hstacked⟩ := exists_levels_enter hd root hq hf
  have hrule := List.mem_map_of_mem (f := RankedRule.rule) hr
  rw [hstacked.rules] at hrule
  obtain ⟨m, hm, hdeclared⟩ := List.mem_flatMap.1 hrule
  rw [anchor_of_mem_declaredIn hdeclared]
  exact (hnested.isInside.2 m hm).trans (Path.isInside_slash _ _)

end Traversal

end TreeSieve
