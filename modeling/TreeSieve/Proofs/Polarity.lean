import TreeSieve.Proofs.Delivery

/-!
# Rules that exclude and rules that bring back

Whether a line makes a rule, and whether the rule excludes or brings back, can be read off the line
alone (`Rule.polarity?`), wherever the line is declared. Of the rules that a judgement goes by only
two things matter below: whether they bring back (`Rule.bringBack`), and if not, which of them
outrank the one that excludes (`Standing.judge_excluded`).

The patterns of a walk are lines like any others, and a root that is no directory stands as they
judge it (`isExcluded_patterns`).
-/

namespace TreeSieve

namespace Rule

/-- Whether the rule that a line makes is negated, if it makes one. -/
def polarity? (line : Text) : Option Bool := (ofLine? [] line).map (·.negated)

theorem map_negated_ofLine? (directory line : Text) :
    (ofLine? directory line).map (·.negated) = polarity? line := by
  unfold polarity? ofLine?
  split
  · rfl
  · split <;> rfl

theorem exists_ofLine? {line : Text} {negated : Bool} (h : polarity? line = some negated)
    (directory : Text) : ∃ r, ofLine? directory line = some r ∧ r.negated = negated := by
  rwa [← map_negated_ofLine? directory, Option.map_eq_some_iff] at h

end Rule

namespace RuleStack

theorem declared_append (directory : Text) (lines lines' : List Text) :
    declared directory (lines ++ lines') = declared directory lines ++ declared directory lines' :=
  List.filterMap_append

/-- A line that makes a rule declares it in its place. -/
theorem declared_cons {line : Text} {directory : Text} {r : Rule}
    (h : Rule.ofLine? directory line = some r) (lines : List Text) :
    declared directory (line :: lines) = r :: declared directory lines :=
  List.filterMap_cons_some h

end RuleStack

/-! ## Bringing back -/

namespace Rule

/-- Whether the first of the rules that apply is negated. -/
def bringBack (rules : List Rule) (p : Rule → Bool) : Bool := (rules.find? p).any (·.negated)

theorem bringBack_cons (r : Rule) (rules : List Rule) (p : Rule → Bool) :
    bringBack (r :: rules) p = if p r then r.negated else bringBack rules p := by
  rw [bringBack, List.find?_cons]
  cases p r <;> rfl

theorem bringBack_of_isPrefix {front rules : List Rule} {p : Rule → Bool} (h : front <+: rules)
    (hfront : bringBack front p = true) : bringBack rules p = true := by
  obtain ⟨r, hr, hneg⟩ := (Option.any_eq_true _ _).1 hfront
  exact (Option.any_eq_true _ _).2 ⟨r, h.find?_eq_some hr, hneg⟩

theorem bringBack_eq_false {rules : List Rule} (h : ∀ r ∈ rules, r.negated = false)
    (p : Rule → Bool) : bringBack rules p = false := by
  rw [bringBack, Option.any_eq_false]
  intro r hr
  simp [h r (List.mem_of_find?_eq_some hr)]

end Rule

namespace Standing

variable (rules : List Rule) (path : Text) (isDirectory : Bool)

theorem judge_excluded (above : List Rule) : (excluded above).judge rules path isDirectory =
    if Rule.bringBack above (·.applies path isDirectory) then included
    else excluded (above.takeWhile (!·.applies path isDirectory)) := by
  rw [judge, consulted, Rule.bringBack]
  cases hfind : above.find? (·.applies path isDirectory) with
  | none =>
    have hall : above.takeWhile (!·.applies path isDirectory) = above :=
      List.takeWhile_eq_self_iff.2 fun r hr => by simpa using List.find?_eq_none.1 hfind r hr
    rw [hall]
    rfl
  | some r => rfl

/-- What is included stays so unless a rule applies, and then it makes no difference. -/
theorem judge_included : included.judge rules path isDirectory =
    if rules.any (·.applies path isDirectory) then
      (excluded rules).judge rules path isDirectory
    else included := by
  rw [judge, judge, consulted, consulted]
  cases hfind : rules.find? (·.applies path isDirectory) with
  | none =>
    have hany : rules.any (·.applies path isDirectory) = false :=
      List.any_eq_false.2 (List.find?_eq_none.1 hfind)
    rw [hany]
    rfl
  | some r =>
    have happlies := List.find?_some hfind
    have hany : rules.any (·.applies path isDirectory) = true :=
      List.any_eq_true.2 ⟨r, List.mem_of_find?_eq_some hfind, happlies⟩
    rw [hany]
    rfl

variable {rules path isDirectory}

theorem judge_of_bringBack {s : Standing}
    (h : Rule.bringBack (s.consulted rules) (·.applies path isDirectory) = true) :
    s.judge rules path isDirectory = included := by
  obtain ⟨r, hr, hneg⟩ := (Option.any_eq_true _ _).1 h
  rw [judge, hr]
  exact if_pos hneg

end Standing

/-! ## Patterns -/

/-- What the rules on a stack exclude on their own. -/
theorem isExcluded_eq {s : RuleStack} (ho : s.Ordered) (path : Text) (isDirectory : Bool) :
    isExcluded s.rules path isDirectory =
      (Standing.included.judge (s.rules.map (·.rule)) path isDirectory).isExcluded := by
  have hevaluate : evaluate s.rules path isDirectory 0 = _ :=
    evaluate_eq s.rules path isDirectory 0
  rw [above_zero ho] at hevaluate
  have hfun : ((fun r : Rule => r.applies path isDirectory) ∘ fun r : RankedRule => r.rule) =
      fun r => r.applies path isDirectory := rfl
  rw [isExcluded, hevaluate, Standing.judge, Standing.consulted, List.find?_map, hfun]
  cases s.rules.find? (·.applies path isDirectory) with
  | none => rfl
  | some r =>
    simp only [Option.map_some, RankedRule.verdict]
    cases r.rule.negated <;> rfl

/-- A path is excluded by patterns as it is excluded by the rules that they make. -/
theorem isExcluded_patterns (directory : Text) (patterns : List Text) (path : Text)
    (isDirectory : Bool) :
    isExcluded (RuleStack.pushAll {} (RuleStack.declared directory patterns)).rules path
        isDirectory =
      (Standing.included.judge (RuleStack.declared directory patterns).reverse path
        isDirectory).isExcluded := by
  obtain ⟨new, hrules, hmap, -⟩ :=
    RuleStack.rules_pushAll {} (RuleStack.declared directory patterns)
  rw [List.append_nil] at hrules
  rw [isExcluded_eq (RuleStack.Ordered.empty.pushAll _), hrules, hmap]

/-- The options with other patterns. -/
def Options.withPatterns (o : Options) (patterns : List Text) : Options := { o with patterns }

/-- A root that is no directory is shown as the rules that the patterns make judge it. -/
theorem Walk.singleFile_withPatterns (o : Options) (d : Disk) (path : Text)
    (patterns : List Text) :
    singleFile (o.withPatterns patterns) d path =
      if o.skipsRuleFile (Path.lastName path) || !o.selectsFile (Path.isHidden path) then []
      else if (Standing.included.judge
          (RuleStack.declared (Path.parent (d.absolute path)) patterns).reverse (d.absolute path)
          false).isExcluded != o.ignored then []
      else
        match o.output with
        | .files => [.result ⟨Path.plain path, false⟩]
        | .directories => [.result ⟨Path.plain (Path.parent path), true⟩] := by
  rw [← isExcluded_patterns]
  rfl

namespace Context

variable (o : Options) (d : Disk) (into : Standing → Bool) (patterns : List Text) (levels : Nat)
  (c : Context)

/-! Below the root, the patterns are rules like any others. -/

theorem walk_withPatterns :
    c.walk (o.withPatterns patterns) d into levels = c.walk o d into levels := by
  apply walk_congr
  case hfailure => rfl
  all_goals exact fun _ => rfl

theorem live_withPatterns :
    c.live (o.withPatterns patterns) d into levels = c.live o d into levels := by
  apply live_congr
  all_goals exact fun _ => rfl

theorem results_withPatterns :
    c.results (o.withPatterns patterns) d into levels = c.results o d into levels := by
  rw [results, results, walk_withPatterns]

end Context

/-- The walker with other patterns. -/
def Walker.withPatterns (w : Walker) (patterns : List Text) : Walker :=
  { w with options := w.options.withPatterns patterns }

end TreeSieve
