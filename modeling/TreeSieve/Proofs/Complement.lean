import TreeSieve.Proofs.Pruning
import TreeSieve.Proofs.Reported
import TreeSieve.Proofs.Resemblance

/-!
# Kept and ignored files

The files that a walk reports and those that it reports when the excluded files are wanted are
complementary parts of one list, the files that are reported when there are no rules at all
(`Walker.results_complementary`).

The walk without rules goes over the same tree with empty rule files. What it reports is the list of
all files with a verdict on each (`Context.verdicts`), without the verdicts; and the other two walks
pick files from this list by their verdicts. Both leave out different directories, but what they
leave out is not to be reported, so they can be compared with the recursion that leaves out none.
-/

namespace TreeSieve

/-! ## Picking by verdict -/

section Picking

variable {α : Type} {verdicts : List (α × Bool)}

theorem mem_picked_iff (hn : (verdicts.map (·.1)).Nodup) {x : α × Bool} (hx : x ∈ verdicts)
    (b : Bool) : x.1 ∈ (verdicts.filter (·.2 == b)).map (·.1) ↔ (x.2 == b) = true := by
  constructor
  · intro hmem
    obtain ⟨y, hy, heq⟩ := List.mem_map.1 hmem
    obtain ⟨hy, hb⟩ := List.mem_filter.1 hy
    rwa [List.inj_on_of_nodup_map hn hy hx heq] at hb
  · intro hb
    exact List.mem_map_of_mem (List.mem_filter.2 ⟨hx, hb⟩)

/-- What is picked by verdict can be picked from the elements alone if they tell the verdict. -/
theorem picked_eq_filter {p : α → Bool} {b : Bool} (h : ∀ x ∈ verdicts, p x.1 = (x.2 == b)) :
    (verdicts.filter (·.2 == b)).map (·.1) = (verdicts.map (·.1)).filter p := by
  rw [List.filter_map]
  apply congrArg (List.map _)
  apply List.filter_congr
  intro x hx
  exact (h x hx).symm

end Picking

/-! ## All files with verdicts -/

namespace Context

variable {o : Options} {d : Disk}

variable (o d) in
/-- All files that could be reported in and below a directory, and whether they are excluded. -/
def verdicts : (levels : Nat) → Context → List (Result × Bool)
  | 0, _ => []
  | levels + 1, c =>
    match c.enter o d with
    | .error _ => []
    | .ok (rules, children) =>
      ((children.filter o.isCandidate).map fun e =>
          (reported e, (c.judge rules e).isExcluded)) ++
        (children.filterMap (c.subcontext? o d (fun _ => true) rules)).flatMap (verdicts levels)

theorem picked_candidates (c : Context) (rules : List Rule) (children : List Entry) :
    (((children.filter o.isCandidate).map fun e =>
        (reported e, (c.judge rules e).isExcluded)).filter (·.2 == o.ignored)).map (·.1) =
      (children.filter (c.reports o rules)).map reported := by
  have hreports : c.reports o rules =
      fun e => ((c.judge rules e).isExcluded == o.ignored) && o.isCandidate e := by
    funext e
    rw [reports, Bool.and_comm]
  rw [List.filter_map, List.map_map, List.filter_filter, hreports]
  rfl

/-- A walk that leaves out no directory reports the files with the wanted verdict. -/
theorem results_eq_verdicts (levels : Nat) (c : Context) :
    c.results o d (fun _ => true) levels =
      ((c.verdicts o d levels).filter (·.2 == o.ignored)).map (·.1) := by
  induction levels generalizing c with
  | zero => rfl
  | succ levels ih =>
    cases henter : c.enter o d with
    | error e =>
      rw [results_of_error levels henter, verdicts, henter]
      rfl
    | ok scope =>
      obtain ⟨rules, children⟩ := scope
      have hbelow : results o d (fun _ => true) levels = fun c =>
          ((c.verdicts o d levels).filter (·.2 == o.ignored)).map (·.1) := funext ih
      rw [results_of_ok levels henter, verdicts, henter, hbelow]
      simp only
      rw [List.filter_append, List.map_append, picked_candidates, List.filter_flatMap,
        List.map_flatMap]

end Context

/-! ## The same tree without rules -/

namespace Disk

/-- Every rule file can be read. -/
def RuleFilesReadable (d : Disk) (name : Text) : Prop :=
  ∀ directory, d.isFile (Path.join directory name) = true →
    ∃ content, d.read (Path.join directory name) = .ok content

/-- Every rule file is empty. -/
def RuleFilesEmpty (d : Disk) (name : Text) : Prop :=
  ∀ directory, d.isFile (Path.join directory name) = true →
    d.read (Path.join directory name) = .ok []

theorem read_of_isFile {d : Disk} {p : Text} (h : d.isFile p = true) :
    ∃ l content, d.locate p = .ok l ∧ d.root.get? l = some (.file content) ∧
      d.read p = if l ∈ d.unreadable then .error .denied else .ok content := by
  rw [isFile, node?] at h
  cases hl : d.locate p with
  | error fault =>
    rw [hl] at h
    cases h
  | ok l =>
    rw [hl] at h
    obtain ⟨node, hnode, hfile⟩ := (Option.any_eq_true _ _).1 h
    cases node with
    | file content =>
      refine ⟨l, content, rfl, hnode, ?_⟩
      rw [read_eq, hl]
      simp only [hnode]
    | link _ | device _ | directory _ => cases hfile

theorem ruleFilesReadable_of_unreadable {d : Disk} (h : d.unreadable = []) (name : Text) :
    d.RuleFilesReadable name := by
  intro directory hfile
  obtain ⟨l, content, -, -, hread⟩ := read_of_isFile hfile
  rw [h, if_neg List.not_mem_nil] at hread
  exact ⟨content, hread⟩

/-- In an emptied tree the rule files are empty, if they can be read at all. -/
theorem RuleFilesReadable.emptied {d : Disk} {name : Text} (h : d.RuleFilesReadable name) :
    d.emptied.RuleFilesEmpty name := by
  intro directory hfile
  have hresembles := resembles_emptied d
  obtain ⟨l, content, hl, hget, hread⟩ := read_of_isFile hfile
  rw [hresembles.isFile] at hfile
  obtain ⟨l', content', hl', hget', hread'⟩ := read_of_isFile hfile
  rw [hresembles.locate, hl'] at hl
  obtain rfl : l' = l := Except.ok.inj hl
  have hempty : content = [] := by
    have hroot : d.emptied.root.get? l' = (d.root.get? l').map Node.emptied :=
      Node.get?_emptied d.root l'
    rw [hroot, hget'] at hget
    cases hget
    rfl
  have hreadable : l' ∉ d.emptied.unreadable := by
    intro hmem
    obtain ⟨content'', hok⟩ := h directory hfile
    rw [hread', if_pos (show l' ∈ d.unreadable from hmem)] at hok
    cases hok
  rw [hread, if_neg hreadable, hempty]

end Disk

/-- The options of a walk without rules. -/
def Options.withoutRules (o : Options) : Options := { o with ignored := false, patterns := [] }

section WithoutRules

variable {o : Options} {d d' : Disk} (hd : d.WellFormed) (hd' : d'.WellFormed)
  (h : d.Resembles d') (hread : ∀ name, o.ruleFileName = some name → d.RuleFilesReadable name)
  (hempty : ∀ name, o.ruleFileName = some name → d'.RuleFilesEmpty name)

include hread in
theorem exists_ownRules (p : Place) (isExcluded : Bool) :
    ∃ own, p.ownRules o d isExcluded = .ok own := by
  rw [Place.ownRules]
  cases hname : o.ruleFileName with
  | none => exact ⟨[], rfl⟩
  | some name =>
    cases isExcluded with
    | true => exact ⟨[], rfl⟩
    | false =>
      simp only [Bool.false_eq_true, ↓reduceIte]
      by_cases hfile : d.isFile (Path.join p.absolute name) = true
      · obtain ⟨content, hcontent⟩ := hread name hname p.absolute hfile
        rw [if_pos hfile, hcontent]
        exact ⟨_, rfl⟩
      · rw [if_neg hfile]
        exact ⟨[], rfl⟩

include hempty in
theorem ownRules_empty (p : Place) (isExcluded : Bool) :
    p.ownRules o.withoutRules d' isExcluded = .ok [] := by
  have hsame : p.ownRules o.withoutRules d' isExcluded = p.ownRules o d' isExcluded := rfl
  rw [hsame, Place.ownRules]
  cases hname : o.ruleFileName with
  | none => rfl
  | some name =>
    cases isExcluded with
    | true => rfl
    | false =>
      simp only [Bool.false_eq_true, ↓reduceIte]
      by_cases hfile : d'.isFile (Path.join p.absolute name) = true
      · rw [if_pos hfile, hempty name hname p.absolute hfile]
        rfl
      · rw [if_neg hfile]

/-- Without rules every file is reported. -/
theorem reports_withoutRules (p : Place) :
    Context.reports o.withoutRules ⟨p, [], .included⟩ [] = o.isCandidate := by
  funext e
  exact Bool.and_true _

variable (o) in
include h in
theorem flatMap_withoutRules {α : Type} {f g : Context → List α}
    (hfg : ∀ c, f ⟨c.place, [], .included⟩ = g c) (c : Context) (rules : List Rule)
    (entries : List Entry) :
    (entries.filterMap (Context.subcontext? o.withoutRules d' (fun _ => true)
      ⟨c.place, [], .included⟩ [])).flatMap f =
        (entries.filterMap (c.subcontext? o d (fun _ => true) rules)).flatMap g := by
  apply flatMap_filterMap_congr
  intro e _
  have hplace : c.place.subdirectory? o.withoutRules d' e = c.place.subdirectory? o d e :=
    h.subdirectory? o c.place e
  rw [Context.subcontext?, Context.subcontext?, if_pos rfl, if_pos rfl, hplace]
  cases c.place.subdirectory? o d e with
  | none => rfl
  | some place => exact hfg ⟨place, rules, c.judge rules e⟩

include hd hd' h hread hempty in
/-- What a walk without rules reports are all files. -/
theorem results_withoutRules (levels : Nat) (c : Context) :
    Context.results o.withoutRules d' (fun _ => true) levels ⟨c.place, [], .included⟩ =
      (c.verdicts o d levels).map (·.1) := by
  induction levels generalizing c with
  | zero => rfl
  | succ levels ih =>
    obtain ⟨own, hown⟩ := exists_ownRules hread c.place c.standing.isExcluded
    have hown' := ownRules_empty hempty c.place false
    have hscan : c.place.scan o.withoutRules d' = c.place.scan o d := h.place_scan o hd hd' c.place
    cases hlist : c.place.scan o d with
    | error fault =>
      have henter : c.enter o d = .error (.unreadable c.place.path (.ofFault fault)) := by
        rw [Context.enter, Context.ownRules, hown, hlist]
      have henter' : Context.enter o.withoutRules d' ⟨c.place, [], .included⟩ =
          .error (.unreadable c.place.path (.ofFault fault)) := by
        rw [Context.enter, Context.ownRules, Standing.isExcluded, hown', hscan, hlist]
      rw [Context.results_of_error levels henter', Context.verdicts, henter]
      rfl
    | ok children =>
      have henter : c.enter o d = .ok (own ++ c.rules, children) := by
        rw [Context.enter, Context.ownRules, hown, hlist]
      have henter' : Context.enter o.withoutRules d' ⟨c.place, [], .included⟩ =
          .ok ([], children) := by
        rw [Context.enter, Context.ownRules, Standing.isExcluded, hown', hscan, hlist]
        rfl
      have hbelow := flatMap_withoutRules o h ih c (own ++ c.rules) children
      rw [Context.results_of_ok levels henter', Context.verdicts, henter, reports_withoutRules,
        hbelow]
      simp only
      rw [List.map_append, List.map_flatMap, List.map_map]
      rfl

end WithoutRules

/-! ## Walkers -/

theorem verdicts_ignored (o : Options) (d : Disk) (ignored : Bool) (levels : Nat) (c : Context) :
    c.verdicts { o with ignored } d levels = c.verdicts o d levels := by
  induction levels generalizing c with
  | zero => rfl
  | succ levels ih =>
    have hbelow : Context.verdicts { o with ignored } d levels = Context.verdicts o d levels :=
      funext ih
    have henter : c.enter { o with ignored } d = c.enter o d := rfl
    rw [Context.verdicts, Context.verdicts, hbelow, henter]
    rfl

/-- A selected file that is a root is judged by the patterns. -/
theorem singleFile_selected {o : Options} (hfiles : o.output = .files) (d : Disk) {root : Text}
    (h : (o.skipsRuleFile (Path.lastName root) || !o.selectsFile (Path.isHidden root)) = false) :
    Walk.singleFile o d root =
      if isExcluded (RuleStack.pushAll {} (RuleStack.declared
        (Path.parent (d.absolute root)) o.patterns)).rules (d.absolute root) false != o.ignored
      then [] else [.result ⟨Path.plain root, false⟩] := by
  unfold Walk.singleFile
  rw [if_neg (by simp [h]), hfiles]

theorem results_singleFile_verdict {o : Options} (hfiles : o.output = .files) (d d' : Disk)
    (root : Text) : ∃ all : List (Result × Bool), all.length ≤ 1 ∧
      (Walk.singleFile o.withoutRules d' root).filterMap Event.result? = all.map (·.1) ∧
      ∀ ignored, (Walk.singleFile { o with ignored } d root).filterMap Event.result? =
        (all.filter (·.2 == ignored)).map (·.1) := by
  cases hskip : o.skipsRuleFile (Path.lastName root) || !o.selectsFile (Path.isHidden root) with
  | true =>
    have hnone : ∀ d o',
        (o'.skipsRuleFile (Path.lastName root) || !o'.selectsFile (Path.isHidden root)) = true →
          Walk.singleFile o' d root = [] := by
      intro d o' hskip'
      unfold Walk.singleFile
      rw [if_pos hskip']
    refine ⟨[], Nat.zero_le _, ?_, fun ignored => ?_⟩
    · rw [hnone d' o.withoutRules hskip]
      rfl
    · rw [hnone d { o with ignored } hskip]
      rfl
  | false =>
    generalize hexcl : isExcluded (RuleStack.pushAll {} (RuleStack.declared
      (Path.parent (d.absolute root)) o.patterns)).rules (d.absolute root) false = excluded
    refine ⟨[(⟨Path.plain root, false⟩, excluded)], Nat.le_refl _, ?_, fun ignored => ?_⟩
    · rw [singleFile_selected (o := o.withoutRules) hfiles d' hskip]
      rfl
    · rw [singleFile_selected (o := { o with ignored }) hfiles d hskip, hexcl]
      cases excluded <;> cases ignored <;> rfl

namespace Walker

/-- The walker that reports the excluded files or the others. -/
def withIgnored (w : Walker) (ignored : Bool) : Walker :=
  { w with options := { w.options with ignored } }

/-- The walker without rules. -/
def withoutRules (w : Walker) : Walker := { w with options := w.options.withoutRules }

section Report

variable {w : Walker} (hfiles : w.options.output = .files) (hreport : w.options.onError = .report)
  {d d' : Disk} (hd : d.WellFormed) (hd' : d'.WellFormed) (h : d.Resembles d')
  (hread : ∀ name, w.options.ruleFileName = some name → d.RuleFilesReadable name)
  (hempty : ∀ name, w.options.ruleFileName = some name → d'.RuleFilesEmpty name)

include hfiles hreport hd in
theorem results_withIgnored {levels : Nat} (hlevels : d.root.size < levels) {root : Text}
    (hroot : d.isDirectory root = true) (ignored : Bool) :
    (w.withIgnored ignored).results d root =
      (((Context.root w.options d root).verdicts w.options d levels).filter
        (·.2 == ignored)).map (·.1) := by
  have hreport' : (w.withIgnored ignored).options.onError = .report := hreport
  have hfiles' : (w.withIgnored ignored).options.output = .files := hfiles
  rw [results_of_isDirectory hreport' hd hlevels hroot, hfiles']
  simp only
  rw [Context.results_descends, Context.results_eq_verdicts]
  rw [← verdicts_ignored w.options d ignored levels]
  rfl

include hfiles hreport hd hd' h hread hempty in
theorem results_withoutRules_eq {levels : Nat} (hlevels : d'.root.size < levels) {root : Text}
    (hroot : d.isDirectory root = true) : w.withoutRules.results d' root =
      ((Context.root w.options d root).verdicts w.options d levels).map (·.1) := by
  have hreport' : w.withoutRules.options.onError = .report := hreport
  have hfiles' : w.withoutRules.options.output = .files := hfiles
  have hroot' : d'.isDirectory root = true := by rw [h.isDirectory, hroot]
  have hstart : Context.root w.withoutRules.options d' root =
      ⟨(Context.root w.options d root).place, [], .included⟩ := by
    have hplace := congrArg Context.place (h.context_root w.options root)
    exact congrArg (Context.mk · [] .included) hplace
  rw [results_of_isDirectory hreport' hd' hlevels hroot', hfiles', hstart]
  simp only
  rw [Context.results_descends]
  exact results_withoutRules hd hd' h hread hempty levels (Context.root w.options d root)

include hfiles hreport hd hd' h in
/-- A root that is no directory is kept or ignored, unless it is not looked at. -/
theorem results_file {root : Text} (hroot : d.isDirectory root = false) :
    ∃ all : List (Result × Bool), all.length ≤ 1 ∧
      w.withoutRules.results d' root = all.map (·.1) ∧
      ∀ ignored, (w.withIgnored ignored).results d root =
        (all.filter (·.2 == ignored)).map (·.1) := by
  have hroot' : d'.isDirectory root = false := by rw [h.isDirectory, hroot]
  have hall : w.withoutRules.results d' root = if d.has root then
      (Walk.singleFile w.options.withoutRules d' root).filterMap Event.result? else [] := by
    have hreport' : w.withoutRules.options.onError = .report := hreport
    rw [results_of_not_isDirectory hreport' hd' hroot', h.has]
    rfl
  have heach : ∀ ignored, (w.withIgnored ignored).results d root = if d.has root then
      (Walk.singleFile { w.options with ignored } d root).filterMap Event.result? else [] := by
    intro ignored
    have hreport' : (w.withIgnored ignored).options.onError = .report := hreport
    exact results_of_not_isDirectory hreport' hd hroot
  rw [hall]
  simp only [heach]
  cases d.has root with
  | true => exact results_singleFile_verdict hfiles d d' root
  | false => exact ⟨[], Nat.zero_le _, rfl, fun _ => rfl⟩

include hfiles hreport hd hd' h hread hempty in
theorem exists_verdicts (root : Text) : ∃ all : List (Result × Bool), (all.map (·.1)).Nodup ∧
    w.withoutRules.results d' root = all.map (·.1) ∧
    ∀ ignored, (w.withIgnored ignored).results d root =
      (all.filter (·.2 == ignored)).map (·.1) := by
  cases hroot : d.isDirectory root with
  | true =>
    have hlevels : d.root.size < d.root.size + d'.root.size + 1 := by omega
    have hlevels' : d'.root.size < d.root.size + d'.root.size + 1 := by omega
    have hall := results_withoutRules_eq hfiles hreport hd hd' h hread hempty hlevels' hroot
    refine ⟨_, ?_, hall, results_withIgnored hfiles hreport hd hlevels hroot⟩
    rw [← results_withoutRules hd hd' h hread hempty]
    exact (Context.nodup_results hd' _ _).of_map _
  | false =>
    obtain ⟨all, hlen, hall, heach⟩ := results_file hfiles hreport hd hd' h hroot
    refine ⟨all, ?_, hall, heach⟩
    match all, hlen with
    | [], _ => exact List.nodup_nil
    | [x], _ => exact List.nodup_singleton _

end Report

/-- **Kept and ignored files are complementary.** -/
theorem results_complementary {w : Walker} (hfiles : w.options.output = .files)
    (hreport : w.options.onError = .report) {d d' : Disk} (hd : d.WellFormed)
    (hd' : d'.WellFormed) (h : d.Resembles d')
    (hread : ∀ name, w.options.ruleFileName = some name → d.RuleFilesReadable name)
    (hempty : ∀ name, w.options.ruleFileName = some name → d'.RuleFilesEmpty name) (root : Text) :
    (w.withoutRules.results d' root).Nodup ∧
    (w.withIgnored false).results d root =
      (w.withoutRules.results d' root).filter (· ∈ (w.withIgnored false).results d root) ∧
    (w.withIgnored true).results d root =
      (w.withoutRules.results d' root).filter (· ∉ (w.withIgnored false).results d root) := by
  obtain ⟨all, hn, hall, heach⟩ := exists_verdicts hfiles hreport hd hd' h hread hempty root
  rw [hall, heach, heach]
  -- No file comes twice, so being kept is a property of the file itself.
  refine ⟨hn, picked_eq_filter ?_, picked_eq_filter ?_⟩
  · intro x hx
    rw [Bool.eq_iff_iff, decide_eq_true_iff, mem_picked_iff hn hx]
  · intro x hx
    rw [Bool.eq_iff_iff, decide_eq_true_iff, mem_picked_iff hn hx]
    cases x.2 <;> simp

/-- A rule file that excludes a directory and brings one of its files back. -/
theorem results_complementary_brought_back :
    results (withIgnored { options := { ruleFileName := some "r" } } true)
        ⟨.directory [("r", .file (Utf8.encode "x\n!y")),
          ("x", .directory [("y", .file []), ("z", .file [])])], [], []⟩ "/" =
      [⟨"/x/z", false⟩] := by
  have hread : ∀ name, Disk.RuleFilesReadable
      ⟨.directory [("r", .file (Utf8.encode "x\n!y")),
        ("x", .directory [("y", .file []), ("z", .file [])])], [], []⟩ name :=
    Disk.ruleFilesReadable_of_unreadable rfl
  have hkept : results (withIgnored { options := { ruleFileName := some "r" } } false)
      ⟨.directory [("r", .file (Utf8.encode "x\n!y")),
        ("x", .directory [("y", .file []), ("z", .file [])])], [], []⟩ "/" =
      [⟨"/x/y", false⟩] := by cbv
  have hall : results (withoutRules { options := { ruleFileName := some "r" } })
      (Disk.emptied ⟨.directory [("r", .file (Utf8.encode "x\n!y")),
        ("x", .directory [("y", .file []), ("z", .file [])])], [], []⟩) "/" =
      [⟨"/x/y", false⟩, ⟨"/x/z", false⟩] := by cbv
  have h := results_complementary (w := { options := { ruleFileName := some "r" } }) rfl rfl
    (by decide) (Disk.WellFormed.emptied (by decide)) (Disk.resembles_emptied _)
    (fun name _ => hread name) (fun name _ => (hread name).emptied) "/"
  rw [h.2.2, hkept, hall]
  decide

end Walker

end TreeSieve
