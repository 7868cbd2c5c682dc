import TreeSieve.Proofs.Failure
import TreeSieve.Proofs.Polarity

/-!
# More exclusions, fewer results

One list of rules is stricter than another if it has more exclude rules and fewer negated ones, and
otherwise the same in the same order (`Rule.Stricter`). Judged by stricter rules, what is included
is included by the more lenient ones too. This also has to hold below a directory that both exclude,
where each asks only the rules that outrank the excluding one: then those of the stricter rules are
stricter than a first part of those that the lenient ones ask about (`Standing.Stricter`), and this
is preserved on the way down (`Standing.Stricter.judge`).

A rule file is read only where its directory is included, so a more lenient walk may come upon
further exclusions. Where there is none below the root, a pattern that excludes adds no result, and
a negated one removes none (`Walker.results_monotone`).
-/

namespace TreeSieve

/-! ## Stricter rules -/

/-- Two lists of rules, newest first, of which the first has more exclude rules and fewer negated
ones. -/
inductive Rule.Stricter : List Rule → List Rule → Prop
  | nil : Stricter [] []
  | both (r : Rule) {strict lenient : List Rule} : Stricter strict lenient →
      Stricter (r :: strict) (r :: lenient)
  | exclude {r : Rule} {strict lenient : List Rule} : r.negated = false →
      Stricter strict lenient → Stricter (r :: strict) lenient
  | negate {r : Rule} {strict lenient : List Rule} : r.negated = true →
      Stricter strict lenient → Stricter strict (r :: lenient)

namespace Rule.Stricter

theorem refl (rules : List Rule) : Stricter rules rules := by
  induction rules with
  | nil => exact .nil
  | cons r rules ih => exact .both r ih

variable {strict lenient : List Rule} (h : Stricter strict lenient)

include h

theorem append {strict' lenient' : List Rule} (h' : Stricter strict' lenient') :
    Stricter (strict ++ strict') (lenient ++ lenient') := by
  induction h with
  | nil => exact h'
  | both r _ ih => exact .both r ih
  | exclude hr _ ih => exact .exclude hr ih
  | negate hr _ ih => exact .negate hr ih

/-- All negated rules are there among the lenient ones. -/
theorem any_negated (hany : strict.any (·.negated) = true) : lenient.any (·.negated) = true := by
  induction h with
  | nil => cases hany
  | both r _ ih =>
    rw [List.any_cons, Bool.or_eq_true] at hany ⊢
    exact hany.imp_right ih
  | exclude hr _ ih =>
    rw [List.any_cons, hr, Bool.false_or] at hany
    exact ih hany
  | negate hr _ ih => rw [List.any_cons, hr, Bool.true_or]

variable {p : Rule → Bool}

/-- Where the strict rules bring back, the lenient ones do. -/
theorem bringBack (hback : Rule.bringBack strict p = true) : Rule.bringBack lenient p = true := by
  induction h with
  | nil => exact hback
  | both q _ ih =>
    rw [bringBack_cons] at hback ⊢
    split at hback
    · next hq => rwa [if_pos hq]
    · next hq => rw [if_neg hq, ih hback]
  | exclude hexcl _ ih =>
    rw [bringBack_cons, hexcl] at hback
    split at hback
    · cases hback
    · exact ih hback
  | negate hneg _ ih => rw [bringBack_cons, hneg, ih hback, ite_self]

/-- Where no strict rule applies, the lenient ones that do are negated. -/
theorem bringBack_of_any (hnone : strict.any p = false) (hany : lenient.any p = true) :
    Rule.bringBack lenient p = true := by
  induction h with
  | nil => cases hany
  | both q _ ih =>
    rw [List.any_cons, Bool.or_eq_false_iff] at hnone
    rw [List.any_cons, hnone.1, Bool.false_or] at hany
    rw [bringBack_cons, hnone.1, if_neg Bool.false_ne_true]
    exact ih hnone.2 hany
  | exclude _ _ ih =>
    rw [List.any_cons, Bool.or_eq_false_iff] at hnone
    exact ih hnone.2 hany
  | negate hneg _ ih =>
    rw [bringBack_cons, hneg]
    split
    · rfl
    · next hq => exact ih hnone (by simpa [hq] using hany)

/-- What the strict rules do not bring back they leave to rules that are stricter than the first
lenient ones, and of these none applies unless the lenient rules bring it back. -/
theorem takeWhile (hnot : Rule.bringBack strict p = false) :
    ∃ front, Stricter (strict.takeWhile (!p ·)) front ∧ front <+: lenient ∧
      (Rule.bringBack lenient p = true ∨ ∀ q ∈ front, p q = false) := by
  induction h with
  | nil => exact ⟨[], .nil, List.nil_prefix, .inr (by simp)⟩
  | both q _ ih =>
    rw [bringBack_cons] at hnot ⊢
    rw [List.takeWhile_cons]
    cases hq : p q with
    | true => exact ⟨[], .nil, List.nil_prefix, .inr (by simp)⟩
    | false =>
      rw [hq] at hnot
      obtain ⟨front, hfront, hpre, hcase⟩ := ih hnot
      exact ⟨q :: front, .both q hfront, (List.prefix_cons_inj q).2 hpre,
        hcase.imp_right fun hnone => List.forall_mem_cons.2 ⟨hq, hnone⟩⟩
  | @exclude q _ _ hexcl _ ih =>
    rw [bringBack_cons] at hnot
    rw [List.takeWhile_cons]
    cases hq : p q with
    | true => exact ⟨[], .nil, List.nil_prefix, .inr (by simp)⟩
    | false =>
      rw [hq] at hnot
      obtain ⟨front, hfront, hpre, hcase⟩ := ih hnot
      exact ⟨front, .exclude hexcl hfront, hpre, hcase⟩
  | @negate q _ _ hneg _ ih =>
    obtain ⟨front, hfront, hpre, hcase⟩ := ih hnot
    refine ⟨q :: front, .negate hneg hfront, (List.prefix_cons_inj q).2 hpre, ?_⟩
    rw [bringBack_cons, hneg]
    cases hq : p q with
    | true => exact .inl rfl
    | false => exact hcase.imp_right fun hnone => List.forall_mem_cons.2 ⟨hq, hnone⟩

end Rule.Stricter

/-! ## Stricter judgements -/

namespace Standing

/-- What stricter rules and more lenient ones have made of the same file or directory. The lenient
rules are given. If the strict ones exclude it, the rules that outrank the exclusion are stricter
than the first of those that the lenient ones ask about below. -/
inductive Stricter (lenient : List Rule) : Standing → Standing → Prop
  | included : Stricter lenient included included
  | excluded {above front : List Rule} {s : Standing} : Rule.Stricter above front →
      front <+: s.consulted lenient → front <+: lenient → Stricter lenient (excluded above) s

/-- The first rules are asked about below again if none of them applies. -/
theorem prefix_consulted_judge {rules front : List Rule} {s : Standing} {path : Text}
    {isDirectory : Bool} (h : front <+: s.consulted rules) (hrules : front <+: rules)
    (hnone : ∀ q ∈ front, q.applies path isDirectory = false) :
    front <+: (s.judge rules path isDirectory).consulted rules := by
  have hexcluded : ∀ {above : List Rule}, front <+: above →
      front <+: ((excluded above).judge rules path isDirectory).consulted rules := by
    rintro _ ⟨rest, rfl⟩
    rw [judge_excluded]
    split
    · exact hrules
    · rw [consulted, List.takeWhile_append_of_pos fun q hq => by rw [hnone q hq]; rfl]
      exact List.prefix_append _ _
  cases s with
  | included =>
    rw [judge_included]
    split
    · exact hexcluded hrules
    · exact hrules
  | excluded above => exact hexcluded h

namespace Stricter

variable {strict lenient : List Rule} (hrules : Rule.Stricter strict lenient) {s s' : Standing}
  (h : Stricter lenient s s')

include h

theorem isExcluded (hs : s.isExcluded = false) : s'.isExcluded = false := by
  cases h with
  | included => rfl
  | excluded _ _ _ => cases hs

/-- Where the stricter walk goes on, the more lenient one does. -/
theorem descends {o : Options} (hignored : o.ignored = false) (hs : o.descends s = true) :
    o.descends s' = true := by
  cases h with
  | included => rfl
  | excluded habove hfront _ =>
    cases s' with
    | included => rfl
    | excluded above' =>
      rw [Options.descends, hignored, Bool.false_or] at hs ⊢
      obtain ⟨r, hr, hneg⟩ := List.any_eq_true.1 (habove.any_negated hs)
      exact List.any_eq_true.2 ⟨r, hfront.subset hr, hneg⟩

include hrules

/-- **Stricter rules stay stricter below.** -/
theorem judge (path : Text) (isDirectory : Bool) :
    Stricter lenient (s.judge strict path isDirectory) (s'.judge lenient path isDirectory) := by
  have hexcluded : ∀ {above front : List Rule}, Rule.Stricter above front →
      front <+: s'.consulted lenient → front <+: lenient →
      Stricter lenient ((Standing.excluded above).judge strict path isDirectory)
        (s'.judge lenient path isDirectory) := by
    intro above front habove hconsulted hpre
    rw [judge_excluded]
    split
    · next hback =>
      rw [judge_of_bringBack (Rule.bringBack_of_isPrefix hconsulted (habove.bringBack hback))]
      exact .included
    · next hnot =>
      obtain ⟨front', hfront', hpre', hcase⟩ := habove.takeWhile (by simpa using hnot)
      have hall := hpre'.trans hpre
      -- Either the lenient rules bring it back, or those in front are asked about below again.
      rcases hcase with hback | hnone
      · rw [judge_of_bringBack (Rule.bringBack_of_isPrefix hconsulted hback)]
        exact .excluded hfront' hall hall
      · exact .excluded hfront' (prefix_consulted_judge (hpre'.trans hconsulted) hall hnone) hall
  cases h with
  | included =>
    rw [judge_included strict]
    split
    · exact hexcluded hrules List.prefix_rfl List.prefix_rfl
    -- No strict rule applies, so what applies of the lenient ones is negated.
    · next hnone =>
      rw [judge_included lenient]
      split
      · next hany =>
        have hback := hrules.bringBack_of_any (by simpa using hnone) hany
        rw [judge_of_bringBack (s := .excluded lenient) hback]
        exact .included
      · exact .included
  | excluded habove hconsulted hpre => exact hexcluded habove hconsulted hpre

end Stricter

end Standing

/-! ## Stricter walks -/

/-- What is gathered from some elements of a list grows with what each of them gives. -/
theorem flatMap_filterMap_sublist {α β γ δ : Type} {l : List α} {f : α → Option β}
    {f' : α → Option γ} {g : β → List δ} {g' : γ → List δ}
    (h : ∀ a ∈ l, ((f a).elim [] g).Sublist ((f' a).elim [] g')) :
    ((l.filterMap f).flatMap g).Sublist ((l.filterMap f').flatMap g') := by
  induction l with
  | nil => exact List.Sublist.refl _
  | cons a l ih =>
    rw [flatMap_filterMap_cons, flatMap_filterMap_cons]
    exact (h a List.mem_cons_self).append (ih fun b hb => h b (List.mem_cons_of_mem a hb))

/-- Whether a directory has a file of the name that rule files have. -/
def Place.hasRuleFile (o : Options) (d : Disk) (p : Place) : Bool :=
  o.ruleFileName.any fun name => d.isFile (Path.join p.absolute name)

theorem Place.ownRules_of_not_hasRuleFile {o : Options} {d : Disk} {p : Place}
    (h : p.hasRuleFile o d = false) (isExcluded : Bool) :
    p.ownRules o d isExcluded = .ok [] := by
  rw [ownRules]
  cases hname : o.ruleFileName with
  | none => rfl
  | some name =>
    rw [hasRuleFile, hname, Option.any_some] at h
    simp [h]

namespace Context

variable {o : Options} {d : Disk}

/-- A directory as a walk with stricter rules comes to it, and one with more lenient rules. -/
structure Stricter (c c' : Context) : Prop where
  place : c'.place = c.place
  rules : Rule.Stricter c.rules c'.rules
  standing : Standing.Stricter c'.rules c.standing c'.standing

variable (hignored : o.ignored = false)

section Entered

variable {c c' : Context} {rules rules' : List Rule} (hplace : c'.place = c.place)
  (hrules : Rule.Stricter rules rules')
  (hstanding : Standing.Stricter rules' c.standing c'.standing)

include hignored hplace hrules hstanding

theorem reports_of_stricter {e : Entry} (he : c.reports o rules e = true) :
    c'.reports o rules' e = true := by
  have hjudge := hstanding.judge hrules (c.place.candidate e) e.isDirectory
  rw [reports, hignored, Bool.and_eq_true, beq_iff_eq] at he ⊢
  rw [judge, hplace]
  exact ⟨he.1, hjudge.isExcluded he.2⟩

/-- Where the stricter walk goes on, the more lenient one does, again with more lenient rules. -/
theorem subcontext?_of_stricter {e : Entry} {s : Context}
    (hs : c.subcontext? o d o.descends rules e = some s) :
    ∃ s', c'.subcontext? o d o.descends rules' e = some s' ∧ Stricter s s' := by
  have hjudge := hstanding.judge hrules (c.place.candidate e) e.isDirectory
  rw [subcontext?] at hs
  split at hs
  · next hinto =>
    obtain ⟨place, hp, rfl⟩ := Option.map_eq_some_iff.1 hs
    refine ⟨{ place, rules := rules', standing := c'.judge rules' e }, ?_, rfl, hrules, ?_⟩
    · have hinto' : o.descends (c'.judge rules' e) = true := by
        rw [judge, hplace]
        exact hjudge.descends hignored hinto
      rw [subcontext?, if_pos hinto', hplace, hp]
      rfl
    · simp only [judge, hplace]
      exact hjudge
  · cases hs

/-- If the directories below do, the directory itself has fewer results under stricter rules. -/
theorem results_sublist_of_below {levels : Nat} {children : List Entry}
    (henter : c.enter o d = .ok (rules, children))
    (henter' : c'.enter o d = .ok (rules', children))
    (hbelow : ∀ s ∈ children.filterMap (c.subcontext? o d o.descends rules),
      ∀ s' ∈ children.filterMap (c'.subcontext? o d o.descends rules'), Stricter s s' →
        (s.results o d o.descends levels).Sublist (s'.results o d o.descends levels)) :
    (c.results o d o.descends (levels + 1)).Sublist (c'.results o d o.descends (levels + 1)) := by
  rw [results_of_ok levels henter, results_of_ok levels henter']
  apply List.Sublist.append
  · exact (List.monotone_filter_right children fun e he =>
      reports_of_stricter hignored hplace hrules hstanding he).map _
  · apply flatMap_filterMap_sublist
    intro e he
    cases hs : c.subcontext? o d o.descends rules e with
    | none => exact List.nil_sublist _
    | some s =>
      obtain ⟨s', hs', hstricter⟩ :=
        subcontext?_of_stricter hignored hplace hrules hstanding hs
      rw [hs']
      exact hbelow s (List.mem_filterMap.2 ⟨e, he, hs⟩) s' (List.mem_filterMap.2 ⟨e, he, hs'⟩)
        hstricter

end Entered

include hignored

/-- **Stricter walks report less** where they find no rule file. -/
theorem results_sublist (levels : Nat) {c c' : Context} (h : Stricter c c')
    (hfree : ∀ s ∈ c.entered o d o.descends levels, ∀ s' ∈ c'.entered o d o.descends levels,
      s.place = s'.place → s.place.hasRuleFile o d = false) :
    (c.results o d o.descends levels).Sublist (c'.results o d o.descends levels) := by
  induction levels generalizing c c' with
  | zero => exact List.Sublist.refl _
  | succ levels ih =>
    have hfile : c.place.hasRuleFile o d = false :=
      hfree c List.mem_cons_self c' List.mem_cons_self h.place.symm
    have hown : c.ownRules o d = .ok [] := Place.ownRules_of_not_hasRuleFile hfile _
    have hown' : c'.ownRules o d = .ok [] := by
      rw [ownRules, h.place]
      exact Place.ownRules_of_not_hasRuleFile hfile _
    cases hscan : c.place.scan o d with
    | error fault =>
      have henter : c.enter o d = .error (.unreadable c.place.path (.ofFault fault)) := by
        rw [enter, hown, hscan]
      rw [results_of_error levels henter]
      exact List.nil_sublist _
    | ok children =>
      have henter : c.enter o d = .ok (c.rules, children) := by
        rw [enter, hown, hscan]
        rfl
      have henter' : c'.enter o d = .ok (c'.rules, children) := by
        rw [enter, hown', h.place, hscan]
        rfl
      rw [entered_of_ok levels henter, entered_of_ok levels henter'] at hfree
      refine results_sublist_of_below hignored h.place h.rules h.standing henter henter' ?_
      intro s hs s' hs' hstricter
      refine ih hstricter fun a ha a' ha' => hfree a ?_ a' ?_
      · exact List.mem_cons_of_mem _ (List.mem_flatMap.2 ⟨s, hs, ha⟩)
      · exact List.mem_cons_of_mem _ (List.mem_flatMap.2 ⟨s', hs', ha'⟩)

/-- The root may have a rule file, since it is read in either case. -/
theorem results_sublist_of_root {levels : Nat} {c c' : Context} (hplace : c'.place = c.place)
    (hrules : Rule.Stricter c.rules c'.rules) (hstanding : c.standing = .included)
    (hstanding' : c'.standing = .included)
    (hfree : ∀ s ∈ (c.entered o d o.descends levels).tail,
      ∀ s' ∈ (c'.entered o d o.descends levels).tail,
        s.place = s'.place → s.place.hasRuleFile o d = false) :
    (c.results o d o.descends levels).Sublist (c'.results o d o.descends levels) := by
  cases levels with
  | zero => exact List.Sublist.refl _
  | succ levels =>
    cases henter : c.enter o d with
    | error e =>
      rw [results_of_error levels henter]
      exact List.nil_sublist _
    | ok scope =>
      obtain ⟨rules, children⟩ := scope
      obtain ⟨own, hown, rfl, hscan⟩ := enter_eq_ok henter
      have henter' : c'.enter o d = .ok (own ++ c'.rules, children) := by
        rw [ownRules, hstanding] at hown
        rw [enter, ownRules, hstanding', hplace, hown, hscan]
      rw [entered_of_ok levels henter, entered_of_ok levels henter'] at hfree
      refine results_sublist_of_below hignored hplace ((Rule.Stricter.refl own).append hrules) ?_
        henter henter' ?_
      · rw [hstanding, hstanding']
        exact .included
      · intro s hs s' hs' hstricter
        refine results_sublist hignored levels hstricter fun a ha a' ha' => hfree a ?_ a' ?_
        · exact List.mem_flatMap.2 ⟨s, hs, ha⟩
        · exact List.mem_flatMap.2 ⟨s', hs', ha'⟩

end Context

/-! ## Patterns -/

theorem Context.entered_withPatterns (o : Options) (d : Disk) (into : Standing → Bool)
    (patterns : List Text) (levels : Nat) (c : Context) :
    c.entered (o.withPatterns patterns) d into levels = c.entered o d into levels := by
  induction levels generalizing c with
  | zero => rfl
  | succ levels ih =>
    have hbelow : entered (o.withPatterns patterns) d into levels = entered o d into levels :=
      funext ih
    rw [entered, entered, hbelow]
    rfl

/-- What stricter patterns show of a root that is no directory, more lenient ones show too. -/
theorem Walk.singleFile_sublist {o : Options} (hignored : o.ignored = false) (d : Disk)
    (root : Text) {strict lenient : List Text}
    (hrules : ∀ directory, Rule.Stricter (RuleStack.declared directory strict).reverse
      (RuleStack.declared directory lenient).reverse) :
    (singleFile (o.withPatterns strict) d root).Sublist
      (singleFile (o.withPatterns lenient) d root) := by
  have hjudge := Standing.Stricter.included.judge (hrules (Path.parent (d.absolute root)))
    (d.absolute root) false
  rw [singleFile_withPatterns, singleFile_withPatterns, hignored]
  split
  · exact List.nil_sublist _
  · split
    · exact List.nil_sublist _
    · next hkept =>
      have hkept' := hjudge.isExcluded (by simpa using hkept)
      rw [if_neg (by simp [hkept'])]

namespace Walker

/-- The directories below the root that a walk enters. -/
def directoriesBelow (w : Walker) (d : Disk) (root : Text) : List Place :=
  (Context.enteredFrom w.options d root).tail.map (·.place)

section Stricter

variable {w : Walker} (hreport : w.options.onError = .report) (hfiles : w.options.output = .files)
  (hignored : w.options.ignored = false) {d : Disk} (hd : d.WellFormed) {root : Text}
  {strict lenient : List Text}
  (hrules : ∀ directory, Rule.Stricter (RuleStack.declared directory strict).reverse
    (RuleStack.declared directory lenient).reverse)

include hreport hfiles hignored hd hrules

/-- A walk with stricter patterns reports less. -/
theorem results_sublist
    (hfree : ∀ p ∈ (w.withPatterns strict).directoriesBelow d root,
      p ∈ (w.withPatterns lenient).directoriesBelow d root →
        p.hasRuleFile w.options d = false) :
    ((w.withPatterns strict).results d root).Sublist
      ((w.withPatterns lenient).results d root) := by
  have hreport' : ∀ patterns, (w.withPatterns patterns).options.onError = .report :=
    fun _ => hreport
  cases hroot : d.isDirectory root with
  | true =>
    have htree : ∀ patterns, (w.withPatterns patterns).results d root =
        (Context.root (w.options.withPatterns patterns) d root).results w.options d
          w.options.descends (d.root.size + 1) := by
      intro patterns
      have hfiles' : (w.withPatterns patterns).options.output = .files := hfiles
      rw [results_of_isDirectory (hreport' patterns) hd (Nat.lt_succ_self _) hroot, hfiles']
      exact Context.results_withPatterns w.options d _ patterns _ _
    have hentered : ∀ patterns, (w.withPatterns patterns).directoriesBelow d root =
        ((Context.root (w.options.withPatterns patterns) d root).entered w.options d
          w.options.descends (d.root.size + 1)).tail.map (·.place) := by
      intro patterns
      rw [directoriesBelow, Context.enteredFrom, if_pos hroot]
      exact congrArg (fun l => (List.tail l).map _)
        (Context.entered_withPatterns w.options d _ patterns _ _)
    rw [hentered, hentered] at hfree
    rw [htree, htree]
    refine Context.results_sublist_of_root hignored rfl (hrules _) rfl rfl ?_
    intro s hs s' hs' hplace
    refine hfree _ (List.mem_map_of_mem hs) ?_
    rw [hplace]
    exact List.mem_map_of_mem hs'
  | false =>
    rw [results_of_not_isDirectory (hreport' strict) hd hroot,
      results_of_not_isDirectory (hreport' lenient) hd hroot]
    cases d.has root with
    | false => exact List.Sublist.refl _
    | true =>
      exact (Walk.singleFile_sublist (o := w.options) hignored d root hrules).filterMap _

end Stricter

/-- **Excluding never adds, and bringing back never removes.** Where no directory that is walked
below the root has a rule file, a pattern that is put somewhere among the others leaves a
subsequence of the results if it excludes, and the results are a subsequence of the new ones if it
is negated. -/
theorem results_monotone {w : Walker} (hreport : w.options.onError = .report)
    (hfiles : w.options.output = .files) (hignored : w.options.ignored = false) {d : Disk}
    (hd : d.WellFormed) {root : Text} (before after : List Text) (line : Text)
    (hfree : ∀ p ∈ (w.withPatterns (before ++ after)).directoriesBelow d root,
      p ∈ (w.withPatterns (before ++ line :: after)).directoriesBelow d root →
        p.hasRuleFile w.options d = false) :
    let old := (w.withPatterns (before ++ after)).results d root
    let new := (w.withPatterns (before ++ line :: after)).results d root
    (Rule.polarity? line = some false → new.Sublist old) ∧
      (Rule.polarity? line = some true → old.Sublist new) := by
  intro old new
  refine ⟨fun hline => ?_, fun hline => ?_⟩
  · refine results_sublist hreport hfiles hignored hd (fun directory => ?_)
      fun p hp hp' => hfree p hp' hp
    obtain ⟨r, hr, hneg⟩ := Rule.exists_ofLine? hline directory
    rw [RuleStack.declared_append, RuleStack.declared_append, RuleStack.declared_cons hr,
      List.reverse_append, List.reverse_append, List.reverse_cons, List.append_assoc]
    exact (Rule.Stricter.refl _).append (.exclude hneg (.refl _))
  · refine results_sublist hreport hfiles hignored hd (fun directory => ?_) hfree
    obtain ⟨r, hr, hneg⟩ := Rule.exists_ofLine? hline directory
    rw [RuleStack.declared_append, RuleStack.declared_append, RuleStack.declared_cons hr,
      List.reverse_append, List.reverse_append, List.reverse_cons, List.append_assoc]
    exact (Rule.Stricter.refl _).append (.negate hneg (.refl _))

/-- A directory that is excluded with one of its files brought back. It is excluded once more, and
then another one of its files is brought back. -/
theorem results_monotone_excluded_directory :
    let w : Walker := { options := { ruleFileName := some "r" } }
    let d : Disk := ⟨.directory [("r", .file (Utf8.encode "*.o")),
      ("x", .directory [("a", .file []), ("b", .file []), ("c.o", .file [])])], [], []⟩
    (w.withPatterns ["x", "!a"]).results d "/" = [⟨"/x/a", false⟩] ∧
      ((w.withPatterns ["x", "!a", "x/"]).results d "/").Sublist [⟨"/x/a", false⟩] ∧
      [⟨"/x/a", false⟩].Sublist ((w.withPatterns ["x", "!a", "!?"]).results d "/") := by
  intro w d
  have hold : (w.withPatterns ["x", "!a"]).results d "/" = [⟨"/x/a", false⟩] := by cbv
  have hbelow : (w.withPatterns ["x", "!a"]).directoriesBelow d "/" = [⟨"/x", "/x", [], 2⟩] := by
    cbv
  have hfree : ∀ line, ∀ p ∈ (w.withPatterns ["x", "!a"]).directoriesBelow d "/",
      p ∈ (w.withPatterns ["x", "!a", line]).directoriesBelow d "/" →
        p.hasRuleFile w.options d = false := by
    intro line p hp _
    rw [hbelow] at hp
    obtain rfl := List.mem_singleton.1 hp
    cbv
  have hmonotone := fun line =>
    results_monotone (w := w) rfl rfl rfl (d := d) (by decide) ["x", "!a"] [] line (hfree line)
  rw [← hold]
  exact ⟨rfl, (hmonotone "x/").1 (by cbv), (hmonotone "!?").2 (by cbv)⟩

end Walker

end TreeSieve
