import TreeSieve.Proofs.DepthLimit

/-!
# The selection of names

Hidden names and the name of the rule files decide which directories a walk enters and which files
it looks at, and with that also which rule files it reads. But the rules of a directory that is not
entered are about what lies below it, and so no other verdict depends on them. The walk that makes
no difference between names (`Options.selectingAll`) therefore finds all that any choice finds, and
a choice leaves out files by the names on the way to them (`Context.results_eq_selected`).
-/

namespace TreeSieve

/-- The names that a path has after those of the directory that it begins with. -/
def Path.namesBelow (base path : Text) : List Text := (names path).drop (names base).length

theorem Path.namesBelow_of_names {base path : Text} {way : List Text}
    (h : names path = names base ++ way) : namesBelow base path = way := by
  rw [namesBelow, h, List.drop_left]

namespace Options

/-- The options that make no difference between names. -/
def selectingAll (o : Options) : Options :=
  { o with hidden := false, force := true, includeRuleFiles := true }

/-- Whether a walk enters the directories on the way to a file and then looks at the file, as far
as their names matter. -/
def selects (o : Options) (way : List Text) : Bool :=
  way.dropLast.all (fun name => o.entersDirectory (Path.isHiddenName name)) &&
    way.getLast?.any fun name => !o.skipsRuleFile name && o.selectsFile (Path.isHiddenName name)

theorem selects_concat (o : Options) (front : List Text) (name : Text) :
    o.selects (front ++ [name]) =
      (front.all (fun name => o.entersDirectory (Path.isHiddenName name)) &&
        (!o.skipsRuleFile name && o.selectsFile (Path.isHiddenName name))) := by
  rw [selects, List.dropLast_concat, List.getLast?_concat, Option.any_some]

theorem selects_singleton (o : Options) (name : Text) : o.selects [name] =
    (!o.skipsRuleFile name && o.selectsFile (Path.isHiddenName name)) :=
  o.selects_concat [] name

theorem selects_cons (o : Options) (name : Text) {way : List Text} (hne : way ≠ []) :
    o.selects (name :: way) =
      (o.entersDirectory (Path.isHiddenName name) && o.selects way) := by
  rw [selects, List.dropLast_cons_of_ne_nil hne, List.getLast?_cons_of_ne_nil hne, List.all_cons,
    Bool.and_assoc, selects]

/-- The options with another choice of hidden names. -/
def withHidden (o : Options) (hidden force : Bool) : Options := { o with hidden, force }

/-- The options with which rule files may be reported or not. -/
def withRuleFiles (o : Options) (includeRuleFiles : Bool) : Options := { o with includeRuleFiles }

section Ways

variable (o : Options) (front : List Text) (name : Text)

theorem selects_force (hidden : Bool) :
    (o.withHidden hidden true).selects (front ++ [name]) = !o.skipsRuleFile name := by
  rw [selects_concat]
  simp [withHidden, entersDirectory, selectsFile, skipsRuleFile]

theorem selects_visible : (o.withHidden false false).selects (front ++ [name]) =
    ((front ++ [name]).all (!Path.isHiddenName ·) && !o.skipsRuleFile name) := by
  rw [selects_concat]
  simp [withHidden, entersDirectory, selectsFile, skipsRuleFile, Bool.and_assoc, Bool.and_comm]

theorem selects_hidden : (o.withHidden true false).selects (front ++ [name]) =
    (Path.isHiddenName name && !o.skipsRuleFile name) := by
  rw [selects_concat]
  simp [withHidden, entersDirectory, selectsFile, skipsRuleFile, Bool.and_comm]

theorem selects_withRuleFiles : (o.withRuleFiles false).selects (front ++ [name]) =
    (decide (some name ≠ o.ruleFileName) && (o.withRuleFiles true).selects (front ++ [name])) := by
  have hskips : (o.withRuleFiles false).skipsRuleFile name =
      decide (some name = o.ruleFileName) := by
    rw [Bool.eq_iff_iff, decide_eq_true_iff, @eq_comm _ (some name)]
    simp [skipsRuleFile, withRuleFiles]
  have hkeeps : (o.withRuleFiles true).skipsRuleFile name = false := by
    simp [skipsRuleFile, withRuleFiles]
  rw [selects_concat, selects_concat, hskips, hkeeps, ← decide_not, Bool.not_false, Bool.true_and,
    Bool.and_left_comm]
  rfl

end Ways

theorem entersDirectory_selectingAll (o : Options) (isHidden : Bool) :
    o.selectingAll.entersDirectory isHidden = true := by
  simp [entersDirectory, selectingAll]

theorem isCandidate_selectingAll (o : Options) (e : Entry) :
    o.selectingAll.isCandidate e = !e.isDirectory := by
  simp [isCandidate, skipsRuleFile, selectsFile, selectingAll]

end Options

namespace Context

variable {o : Options} {d : Disk} {into : Standing → Bool}

theorem isHidden_of_scan {c : Context} {children : List Entry}
    (hscan : c.place.scan o d = .ok children) {e : Entry} (he : e ∈ children) :
    e.isHidden = Path.isHiddenName e.name := by
  obtain ⟨entries, -, rfl⟩ := Disk.scan_eq_ok hscan
  obtain ⟨child, -, rfl⟩ := List.mem_map.1 he
  rfl

/-- What is reported in a directory itself. -/
theorem reports_eq_selects {c : Context} {children : List Entry}
    (hscan : c.place.scan o d = .ok children) (rules : List Rule) {e : Entry} (he : e ∈ children) :
    c.reports o rules e = (o.selects [e.name] && c.reports o.selectingAll rules e) := by
  rw [reports, reports, Options.isCandidate_selectingAll, Options.isCandidate,
    isHidden_of_scan hscan he, Options.selects_singleton]
  have hignored : o.selectingAll.ignored = o.ignored := rfl
  rw [hignored]
  cases e.isDirectory <;> simp [Bool.and_assoc]

/-- A subdirectory is entered if its name is one that is entered. -/
theorem subcontext?_eq_ite (c : Context) (rules : List Rule) (e : Entry) :
    c.subcontext? o d into rules e =
      if o.entersDirectory e.isHidden then c.subcontext? o.selectingAll d into rules e
      else none := by
  have hbelow : c.place.below? o.selectingAll d e = c.place.below? o d e := rfl
  rw [subcontext?, subcontext?, Place.subdirectory?, Place.subdirectory?, hbelow,
    Options.entersDirectory_selectingAll]
  cases o.entersDirectory e.isHidden <;> simp

/-- **A choice of names leaves out files by the names on the way to them**, and changes nothing
else. -/
theorem results_eq_selected (hd : d.WellFormed) (levels : Nat) (c : Context) :
    c.results o d into levels = (c.results o.selectingAll d into levels).filter fun r =>
      o.selects (Path.namesBelow c.place.path r.path) := by
  induction levels generalizing c with
  | zero => rfl
  | succ levels ih =>
    have hsame : c.enter o.selectingAll d = c.enter o d := rfl
    cases henter : c.enter o d with
    | error e =>
      rw [results_of_error levels henter, results_of_error levels (hsame.trans henter)]
      rfl
    | ok scope =>
      obtain ⟨rules, children⟩ := scope
      obtain ⟨own, -, -, hscan⟩ := enter_eq_ok henter
      rw [results_of_ok levels henter, results_of_ok levels (hsame.trans henter),
        List.filter_append]
      congr 1
      · rw [List.filter_map, List.filter_filter]
        refine congrArg _ (List.filter_congr fun e he => ?_)
        rw [reports_eq_selects hscan rules he, Function.comp_apply,
          Path.namesBelow_of_names (names_reported hd hscan he)]
      · rw [List.filter_flatMap]
        apply flatMap_filterMap_congr
        intro e he
        rw [subcontext?_eq_ite]
        cases hsub : c.subcontext? o.selectingAll d into rules e with
        | none => split <;> rfl
        | some c' =>
          -- The way from here goes through the name of the subdirectory.
          obtain ⟨hname, hpath⟩ := subcontext?_eq_some (o := o.selectingAll) hd hscan he hsub
          have hway : ∀ r ∈ c'.results o.selectingAll d into levels,
              o.selects (Path.namesBelow c.place.path r.path) =
                (o.entersDirectory e.isHidden &&
                  o.selects (Path.namesBelow c'.place.path r.path)) := by
            intro r hr
            obtain ⟨rest, hrest, hne⟩ := names_of_mem_results hd levels r hr
            rw [Path.namesBelow_of_names hrest, isHidden_of_scan hscan he,
              ← o.selects_cons e.name hne]
            rw [hpath, Path.names_join hname, List.append_assoc] at hrest
            rw [Path.namesBelow_of_names hrest, List.singleton_append]
          cases henters : o.entersDirectory e.isHidden with
          | true =>
            rw [if_pos rfl, Option.elim_some, Option.elim_some, ih c']
            exact List.filter_congr fun r hr => by rw [hway r hr, henters, Bool.true_and]
          | false =>
            rw [if_neg Bool.false_ne_true, Option.elim_none, Option.elim_some]
            symm
            exact List.filter_eq_nil_iff.2 fun r hr => by simp [hway r hr, henters]

end Context

namespace Walker

/-- The walker that makes no difference between names. -/
def selectingAll (w : Walker) : Walker := { w with options := w.options.selectingAll }

/-- The walker with other options about hidden names. -/
def withHidden (w : Walker) (hidden force : Bool) : Walker :=
  { w with options := w.options.withHidden hidden force }

/-- The walker that may report rule files or does not. -/
def withRuleFiles (w : Walker) (includeRuleFiles : Bool) : Walker :=
  { w with options := w.options.withRuleFiles includeRuleFiles }

section Report

variable {w : Walker} (hfiles : w.options.output = .files) (hreport : w.options.onError = .report)
  {d : Disk} (hd : d.WellFormed) {root : Text} (hroot : d.isDirectory root = true)

include hfiles hreport hd hroot

theorem results_eq_context : w.results d root =
    (Context.root w.options d root).results w.options d w.options.descends (d.root.size + 1) := by
  rw [results_of_isDirectory hreport hd (Nat.lt_succ_self _) hroot, hfiles]

/-- A file has at least one name below the root. -/
theorem exists_way_of_mem_results {r : Result} (hr : r ∈ w.results d root) :
    ∃ front name, Path.names r.path = Path.names root ++ (front ++ [name]) := by
  rw [results_eq_context hfiles hreport hd hroot] at hr
  obtain ⟨way, hway, hne⟩ := Context.names_of_mem_results hd _ r hr
  exact ⟨way.dropLast, way.getLast hne, by rw [List.dropLast_append_getLast]; exact hway⟩

/-- What a walk with another selection of names reports. -/
theorem results_eq_selected {w' : Walker} (hsame : w'.selectingAll = w.selectingAll) :
    w'.results d root = (w.selectingAll.results d root).filter fun r =>
      w'.options.selects (Path.namesBelow root r.path) := by
  have hoptions := congrArg Walker.options hsame
  have hfiles' : w'.options.output = .files := (congrArg Options.output hoptions).trans hfiles
  have hreport' : w'.options.onError = .report := (congrArg Options.onError hoptions).trans hreport
  rw [← hsame, results_eq_context hfiles' hreport' hd hroot,
    results_eq_context (w := w'.selectingAll) hfiles' hreport' hd hroot]
  exact Context.results_eq_selected hd _ _

/-- Two walks that differ in the selection of names only, where the first one selects the ways that
the second one selects and that pass a test. -/
theorem results_eq_filter (w₁ w₂ : Walker) (h₁ : w₁.selectingAll = w.selectingAll)
    (h₂ : w₂.selectingAll = w.selectingAll) {p : Result → Bool}
    (hp : ∀ r front name, Path.names r.path = Path.names root ++ (front ++ [name]) →
      w₁.options.selects (front ++ [name]) = (p r && w₂.options.selects (front ++ [name]))) :
    w₁.results d root = (w₂.results d root).filter p := by
  rw [results_eq_selected hfiles hreport hd hroot h₁,
    results_eq_selected hfiles hreport hd hroot h₂, List.filter_filter]
  apply List.filter_congr
  intro r hr
  obtain ⟨front, name, hnames⟩ :=
    exists_way_of_mem_results (w := w.selectingAll) hfiles hreport hd hroot hr
  rw [Path.namesBelow_of_names hnames]
  exact hp r front name hnames

/-- **The selection of names is a filter.** The forced walk makes no difference between names, and
it does not matter whether hidden files are asked for. Without force, a walk for visible files
reports those of its files that have no hidden name below the root, and a walk for hidden files
those whose last name is hidden, in the same order. Rule files are left out by their last name. -/
theorem results_withHidden :
    (∀ hidden, (w.withHidden false false).results d root =
      ((w.withHidden hidden true).results d root).filter fun r =>
        (Path.namesBelow root r.path).all (!Path.isHiddenName ·)) ∧
    (∀ hidden, (w.withHidden true false).results d root =
      ((w.withHidden hidden true).results d root).filter fun r =>
        (Path.names r.path).getLast?.any Path.isHiddenName) ∧
    (w.withHidden true true).results d root = (w.withHidden false true).results d root ∧
    (w.withRuleFiles false).results d root =
      ((w.withRuleFiles true).results d root).filter fun r =>
        (Path.names r.path).getLast? ≠ w.options.ruleFileName := by
  refine ⟨fun hidden => ?_, fun hidden => ?_, ?_, ?_⟩
  · apply results_eq_filter hfiles hreport hd hroot (w.withHidden false false)
      (w.withHidden hidden true) rfl rfl
    intro r front name hnames
    rw [Path.namesBelow_of_names hnames]
    exact (Options.selects_visible ..).trans (congrArg _ (Options.selects_force ..).symm)
  · apply results_eq_filter hfiles hreport hd hroot (w.withHidden true false)
      (w.withHidden hidden true) rfl rfl
    intro r front name hnames
    rw [hnames, ← List.append_assoc, List.getLast?_concat, Option.any_some]
    exact (Options.selects_hidden ..).trans (congrArg _ (Options.selects_force ..).symm)
  · rw [results_eq_filter hfiles hreport hd hroot (w.withHidden true true)
      (w.withHidden false true) rfl rfl (p := fun _ => true)]
    · exact List.filter_eq_self.2 fun _ _ => rfl
    · intro r front name hnames
      exact (Options.selects_force ..).trans (Options.selects_force ..).symm
  · apply results_eq_filter hfiles hreport hd hroot (w.withRuleFiles false) (w.withRuleFiles true)
      rfl rfl
    intro r front name hnames
    rw [hnames, ← List.append_assoc, List.getLast?_concat]
    exact Options.selects_withRuleFiles ..

end Report

/-- Only some of these walks read the rule file in the hidden directory, and its rule excludes
`/.h/x` in all of them. -/
theorem results_withHidden_rule_file :
    let w : Walker := { options := { ruleFileName := some "r" } }
    let d : Disk := ⟨.directory [(".h", .directory [("r", .file (Utf8.encode "x")),
      (".a", .file []), ("b", .file []), ("x", .file [])]), ("c", .file []), (".x", .file [])],
      [], []⟩
    (w.withHidden false true).results d "/" =
        [⟨"/.x", false⟩, ⟨"/c", false⟩, ⟨"/.h/.a", false⟩, ⟨"/.h/b", false⟩] ∧
      (w.withHidden false false).results d "/" = [⟨"/c", false⟩] ∧
      (w.withHidden true false).results d "/" = [⟨"/.x", false⟩, ⟨"/.h/.a", false⟩] ∧
      (w.withHidden true true).results d "/" =
        [⟨"/.x", false⟩, ⟨"/c", false⟩, ⟨"/.h/.a", false⟩, ⟨"/.h/b", false⟩] ∧
      (w.withRuleFiles false).results d "/" = [⟨"/c", false⟩] := by
  intro w d
  obtain ⟨hvisible, hhidden, hforced, hruleFiles⟩ :=
    results_withHidden (w := w) rfl rfl (d := d) (by decide)
      (show d.isDirectory "/" = true by cbv)
  exact ⟨by cbv, (hvisible false).trans (by cbv), (hhidden false).trans (by cbv),
    hforced.trans (by cbv), hruleFiles.trans (by cbv)⟩

end Walker

end TreeSieve
