import TreeSieve.Proofs.Complement
import TreeSieve.Proofs.Reported

/-!
# What lies below a directory that is brought back

A negated rule can bring back a directory that lies in an excluded one. Then the exclusion of the
directories above ends there (`Exhaustive.excludedBy_of_staysIncluded`): below, every file and
directory is judged by all rules in scope, as in any included directory. So a file is reported
unless the first of them that applies excludes it (`Walker.mem_results_reincluded`).

The rule that had excluded the directory above is one of these rules. Inside it takes effect again
where it applies by itself and no negated rule comes before it. For example `a/` excludes the inner
`a` of `a/b/a`, although `!a/b/` has brought back `a/b` (`Walker.excluded_again_below_reincluded`).
-/

namespace TreeSieve

namespace Context

variable (o : Options) (d : Disk)

/-- One directory is walked directly from another. -/
def IsSubcontext (c c' : Context) : Prop := ∃ rules children,
  c.enter o d = .ok (rules, children) ∧
    c' ∈ children.filterMap (c.subcontext? o d (fun _ => true) rules)

variable {o d} (hd : d.WellFormed)

include hd

theorem names_of_isSubcontext {c c' : Context} (h : c.IsSubcontext o d c') :
    ∃ name, Path.names c'.place.path = Path.names c.place.path ++ [name] := by
  obtain ⟨rules, children, henter, hc'⟩ := h
  obtain ⟨own, -, -, hscan⟩ := enter_eq_ok henter
  obtain ⟨name, hname, hpath⟩ := path_of_mem_subcontexts hd hscan hc'
  exact ⟨name, by rw [hpath, Path.names_join hname]⟩

theorem names_of_reaches {c s : Context}
    (h : Relation.ReflTransGen (IsSubcontext o d) c s) :
    ∃ rest, Path.names s.place.path = Path.names c.place.path ++ rest := by
  induction h with
  | refl => exact ⟨[], (List.append_nil _).symm⟩
  | tail _ hstep ih =>
    obtain ⟨rest, hrest⟩ := ih
    obtain ⟨name, hname⟩ := names_of_isSubcontext hd hstep
    exact ⟨rest ++ [name], by rw [hname, hrest, List.append_assoc]⟩

theorem eq_of_reported {c : Context} {children : List Entry}
    (hscan : c.place.scan o d = .ok children) {e e' : Entry} (he : e ∈ children)
    (he' : e' ∈ children) (h : Path.names (reported e).path = Path.names (reported e').path) :
    e = e' := by
  rw [names_reported hd hscan he, names_reported hd hscan he'] at h
  have hname : e.name = e'.name := by simpa using h
  exact List.inj_on_of_nodup_map (Disk.nodup_names_scan hd hscan) he he' hname

omit hd in
theorem exists_levels {levels : Nat} {p : Place} (h : Place.Shallow o d levels p) :
    ∃ k, levels = k + 1 := by
  cases levels with
  | zero => exact h.elim
  | succ k => exact ⟨k, rfl⟩

/-- What lies below a subdirectory is reported by the walk of that subdirectory alone. -/
theorem mem_results_below (levels : Nat) {c c' : Context} {rules : List Rule}
    {children : List Entry} (henter : c.enter o d = .ok (rules, children))
    (hc' : c' ∈ children.filterMap (c.subcontext? o d (fun _ => true) rules)) {r : Result}
    {rest : List Text} (hr : Path.names r.path = Path.names c'.place.path ++ rest)
    (hne : rest ≠ []) :
    r ∈ c.results o d (fun _ => true) (levels + 1) ↔ r ∈ c'.results o d (fun _ => true) levels := by
  obtain ⟨own, -, -, hscan⟩ := enter_eq_ok henter
  obtain ⟨name, hname, hpath⟩ := path_of_mem_subcontexts hd hscan hc'
  rw [hpath, Path.names_join hname] at hr
  rw [results_of_ok levels henter]
  constructor
  · intro hmem
    rcases List.mem_append.1 hmem with hown | hbelow
    · obtain ⟨e, he, rfl⟩ := List.mem_map.1 hown
      rw [names_reported hd hscan (List.mem_of_mem_filter he)] at hr
      have hlen := congrArg List.length hr
      simp only [List.length_append, List.length_singleton] at hlen
      exact absurd (List.length_pos_iff.2 hne) (by omega)
    · obtain ⟨c'', hc'', hbelow⟩ := List.mem_flatMap.1 hbelow
      obtain ⟨name', hname', hpath'⟩ := path_of_mem_subcontexts hd hscan hc''
      obtain ⟨rest', hrest', -⟩ := names_of_mem_results hd levels _ hbelow
      rw [hrest', hpath', Path.names_join hname'] at hr
      have hsame : name' = name := by
        simp only [List.append_assoc, List.append_cancel_left_eq] at hr
        exact (List.cons.inj hr).1
      have heq : c'' = c' := List.inj_on_of_nodup_map (nodup_names_subcontexts hd hscan) hc'' hc'
        (by simp only [hpath, hpath', hsame])
      rwa [heq] at hbelow
  · intro hmem
    exact List.mem_append_right _ (List.mem_flatMap.2 ⟨c', hc', hmem⟩)

/-- A walk reports a file if the directory in which the file lies does so. -/
theorem mem_results_iff {levels : Nat} {c s : Context}
    (hshallow : Place.Shallow o d levels c.place)
    (h : Relation.ReflTransGen (IsSubcontext o d) c s) {rules : List Rule}
    {children : List Entry} (henter : s.enter o d = .ok (rules, children)) {e : Entry}
    (he : e ∈ children) :
    reported e ∈ c.results o d (fun _ => true) levels ↔ s.reports o rules e = true := by
  obtain ⟨own, -, -, hscan⟩ := enter_eq_ok henter
  induction h using Relation.ReflTransGen.head_induction_on generalizing levels with
  | refl =>
    obtain ⟨levels, rfl⟩ := exists_levels hshallow
    rw [results_of_ok levels henter]
    constructor
    · intro hmem
      rcases List.mem_append.1 hmem with hown | hbelow
      · obtain ⟨e', he', heq⟩ := List.mem_map.1 hown
        obtain ⟨hmem', hreports⟩ := List.mem_filter.1 he'
        obtain rfl := eq_of_reported hd hscan hmem' he (by rw [heq])
        exact hreports
      · obtain ⟨c', hc', hr⟩ := List.mem_flatMap.1 hbelow
        exact absurd rfl (disjoint_own_below hd hscan levels he hc' hr)
    · intro hreports
      exact List.mem_append_left _ (List.mem_map_of_mem (List.mem_filter.2 ⟨he, hreports⟩))
  | head hstep hrest ih =>
    obtain ⟨levels, rfl⟩ := exists_levels hshallow
    obtain ⟨rules', children', henter', hc'⟩ := hstep
    obtain ⟨rest, hs⟩ := names_of_reaches hd hrest
    have hnames := names_reported hd hscan he
    rw [hs, List.append_assoc] at hnames
    exact (mem_results_below hd levels henter' hc' hnames (by simp)).trans
      (ih (shallow_of_mem_subcontexts hshallow henter' hc'))

/-! ## Where nothing is unreadable -/

variable (hreadable : d.unreadable = [])

include hreadable

/-- Every subdirectory can be entered. -/
theorem exists_enter_of_mem_subcontexts {into : Standing → Bool} {c c' : Context}
    {rules : List Rule} {children : List Entry} (hscan : c.place.scan o d = .ok children)
    (hc' : c' ∈ children.filterMap (c.subcontext? o d into rules)) :
    ∃ scope, c'.enter o d = .ok scope := by
  obtain ⟨e, he, hsub⟩ := mem_subcontexts hc'
  obtain ⟨hdir, hbelow⟩ := Place.subdirectory?_eq_some hsub
  obtain ⟨-, habs, -⟩ := Place.below?_eq_some hbelow
  obtain ⟨l, m, entries, -, hm, hget, -⟩ := Disk.locate_subdirectory hd hscan he hdir
  have hread : ∀ name, o.ruleFileName = some name → d.RuleFilesReadable name :=
    fun name _ => Disk.ruleFilesReadable_of_unreadable hreadable name
  obtain ⟨own, hown⟩ := exists_ownRules hread c'.place c'.standing.isExcluded
  have hentries : d.entries c'.place.absolute = .ok entries := by
    rw [habs, Disk.entries_of_get? hm hget, hreadable, if_neg List.not_mem_nil]
  have hscan' : c'.place.scan o d = .ok (sortedByName (·.name)
      (entries.map (d.entryOf c'.place.absolute c'.place.path o.followLinks))) := by
    rw [Place.scan, Disk.scan_eq, hentries]
    rfl
  exact ⟨_, by rw [enter, ownRules, hown, hscan']⟩

/-- No error ends a walk that can enter its root. -/
theorem isFinal_walk_of_enter (into : Standing → Bool) (levels : Nat) {c : Context}
    (henter : ∃ scope, c.enter o d = .ok scope) :
    ∀ e ∈ c.walk o d into levels, e.isFinal = false := by
  induction levels generalizing c with
  | zero => simp [walk]
  | succ levels ih =>
    obtain ⟨⟨rules, children⟩, henter⟩ := henter
    obtain ⟨own, -, -, hscan⟩ := enter_eq_ok henter
    intro e he
    rw [walk, henter] at he
    rcases List.mem_append.1 he with hown | hbelow
    · obtain ⟨f, -, rfl⟩ := List.mem_map.1 hown
      rfl
    · obtain ⟨c', hc', he⟩ := List.mem_flatMap.1 hbelow
      exact ih (exists_enter_of_mem_subcontexts hd hreadable hscan hc') e he

end Context

/-! ## Directories of the exhaustive walk -/

namespace Exhaustive

variable (o : Options) (d : Disk)

/-- One directory is entered directly from another. -/
def IsSubdirectory (s s' : Exhaustive) : Prop := ∃ rules children, ∃ e ∈ children,
  s.enter o d = .ok (rules, children) ∧ s.subdirectory? o d rules e = some s'

/-- One directory is entered directly from another, and the first rule in scope that applies to it,
if there is one, does not exclude it. -/
def StaysIncluded (s s' : Exhaustive) : Prop := ∃ rules children, ∃ e ∈ children,
  s.enter o d = .ok (rules, children) ∧ s.subdirectory? o d rules e = some s' ∧
    (evaluate rules.rules (s.place.candidate e) e.isDirectory 0).1 ≠ .drop

variable {o d} {s s' t : Exhaustive} {c : Context}

theorem StaysIncluded.isSubdirectory (h : s.StaysIncluded o d s') : s.IsSubdirectory o d s' := by
  obtain ⟨rules, children, e, he, henter, hsub, -⟩ := h
  exact ⟨rules, children, e, he, henter, hsub⟩

/-- In an included directory the first rule that applies decides. -/
theorem exclusion_of_included (h : s.excludedBy = 0) (rules : RuleStack) (e : Entry) :
    s.exclusion rules e =
      match evaluate rules.rules (s.place.candidate e) e.isDirectory 0 with
      | (.drop, priority) => priority
      | _ => 0 := by
  rw [exclusion, TreeSieve.judge, h, Int.natCast_zero]
  cases evaluate rules.rules (s.place.candidate e) e.isDirectory 0 with
  | mk verdict p => cases verdict <;> rfl

theorem pos_of_evaluate_drop {rules : List RankedRule} {path : Text} {isDirectory : Bool} {p : Nat}
    (h : evaluate rules path isDirectory 0 = (.drop, p)) : 0 < p := by
  have heq := evaluate_eq rules path isDirectory 0
  rw [Int.natCast_zero, h] at heq
  cases hfind : (above rules 0).find? (·.applies path isDirectory) with
  | none =>
    rw [hfind] at heq
    cases heq
  | some r =>
    rw [hfind] at heq
    obtain ⟨-, rfl⟩ := Prod.mk.inj heq
    exact lt_of_mem_above (List.mem_of_find?_eq_some hfind)

theorem exclusion_eq_zero_iff (h : s.excludedBy = 0) (rules : RuleStack) (e : Entry) :
    s.exclusion rules e = 0 ↔
      (evaluate rules.rules (s.place.candidate e) e.isDirectory 0).1 ≠ .drop := by
  rw [exclusion_of_included h]
  cases heval : evaluate rules.rules (s.place.candidate e) e.isDirectory 0 with
  | mk verdict p =>
    cases verdict with
    | keep => simp
    | allow => simp
    | drop => simpa using Nat.ne_of_gt (pos_of_evaluate_drop heval)

/-- What is not excluded by itself is included below an included directory. -/
theorem excludedBy_of_staysIncluded (h : s.excludedBy = 0)
    (hst : Relation.ReflTransGen (StaysIncluded o d) s t) : t.excludedBy = 0 := by
  induction hst with
  | refl => exact h
  | tail _ hstep ih =>
    obtain ⟨rules, children, e, -, -, hsub, hkeep⟩ := hstep
    obtain ⟨place, -, rfl⟩ := Option.map_eq_some_iff.1 hsub
    exact (exclusion_eq_zero_iff ih rules e).2 hkeep

/-- A directory that a negated rule brings back is included. -/
theorem excludedBy_of_allow {rules : RuleStack} {e : Entry} {q : Nat}
    (hallow : evaluate rules.rules (s.place.candidate e) true s.excludedBy = (.allow, q))
    (hsub : s.subdirectory? o d rules e = some s') : s'.excludedBy = 0 := by
  obtain ⟨place, hplace, rfl⟩ := Option.map_eq_some_iff.1 hsub
  obtain ⟨hdir, -⟩ := Place.subdirectory?_eq_some hplace
  rw [← hdir] at hallow
  change s.exclusion rules e = 0
  rw [exclusion, TreeSieve.judge, hallow]

section Stands

variable (h : Stands s c)

include h

theorem Stands.enter_eq_ok {stack : RuleStack} {children : List Entry}
    (henter : s.enter o d = .ok (stack, children)) :
    ∃ rules, c.enter o d = .ok (rules, children) ∧ stack.rules.map (·.rule) = rules ∧
      stack.Ordered ∧ Agrees stack.rules s.excludedBy c.standing := by
  have hc := h.enter (o := o) (d := d)
  cases hcase : c.enter o d with
  | error e =>
    rw [hcase] at hc
    rw [hc] at henter
    cases henter
  | ok scope =>
    obtain ⟨rules, found⟩ := scope
    rw [hcase] at hc
    obtain ⟨stack', hs, hrules, ho, hst⟩ := hc
    rw [henter] at hs
    cases hs
    exact ⟨rules, rfl, hrules, ho, hst⟩

theorem Stands.isSubcontext (hsub : s.IsSubdirectory o d s') :
    ∃ c', Stands s' c' ∧ c.IsSubcontext o d c' := by
  obtain ⟨stack, children, e, he, henter, hsub⟩ := hsub
  obtain ⟨rules, hc, hrules, ho, hst⟩ := h.enter_eq_ok henter
  obtain ⟨place, hplace, rfl⟩ := Option.map_eq_some_iff.1 hsub
  refine ⟨⟨place, rules, c.judge rules e⟩, ⟨rfl, hrules, ho, h.exclusion hrules ho hst e⟩,
    rules, children, hc, List.mem_filterMap.2 ⟨e, he, ?_⟩⟩
  rw [Context.subcontext?, if_pos rfl, ← h.place, hplace]
  rfl

theorem Stands.reaches (hst : Relation.ReflTransGen (IsSubdirectory o d) s t) :
    ∃ c', Stands t c' ∧ Relation.ReflTransGen (Context.IsSubcontext o d) c c' := by
  induction hst with
  | refl => exact ⟨c, h, .refl⟩
  | tail _ hstep ih =>
    obtain ⟨c', hc', hreach⟩ := ih
    obtain ⟨c'', hc'', hsub⟩ := hc'.isSubcontext hstep
    exact ⟨c'', hc'', hreach.tail hsub⟩

end Stands

end Exhaustive

namespace Walker

variable {w : Walker} {d : Disk}

/-- A walk in which nothing is unreadable reports a file if the directory in which the file lies
does so. -/
theorem mem_results_iff_reports (hfiles : w.options.output = .files) (hd : d.WellFormed)
    (hreadable : d.unreadable = []) {root : Text} (hroot : d.isDirectory root = true)
    {t : Exhaustive}
    (ht : Relation.ReflTransGen (Exhaustive.IsSubdirectory w.options d)
      (Exhaustive.root w.options d root) t)
    {rules : RuleStack} {children : List Entry}
    (henter : t.enter w.options d = .ok (rules, children))
    {f : Entry} (hf : f ∈ children) :
    Context.reported f ∈ w.results d root ↔ t.reports w.options rules f = true := by
  have hlevels : d.root.size < d.root.size + 1 := Nat.lt_succ_self _
  obtain ⟨c, hc, hreach⟩ := (Exhaustive.stands_root (o := w.options) (d := d) root).reaches ht
  obtain ⟨own, hcenter, hrules, ho, hst⟩ := hc.enter_eq_ok henter
  -- The root can be entered, since something below it is.
  have hrootEnter : ∃ scope, (Context.root w.options d root).enter w.options d = .ok scope := by
    rcases hreach.cases_head with rfl | ⟨c', ⟨rules', children', henter', -⟩, -⟩
    · exact ⟨_, hcenter⟩
    · exact ⟨_, henter'⟩
  have hwalk : (w.walk d root none).1 = (Context.root w.options d root).walk w.options d
      w.options.descends (d.root.size + 1) := by
    have hlisting : Walk.listing w.options d
        (Context.tree w.options d w.options.descends (d.root.size + 1)) root =
          (Context.root w.options d root).walk w.options d w.options.descends
            (d.root.size + 1) := by
      rw [Walk.listing, if_pos (Disk.has_of_isDirectory hroot), if_pos hroot, Context.tree,
        Options.listing, hfiles]
    rw [← hlisting]
    apply walk_eq_of_not_isFinal hd hlevels
    rw [hlisting]
    exact Context.isFinal_walk_of_enter hd hreadable _ _ hrootEnter
  have hresults : w.results d root = (Context.root w.options d root).results w.options d
      (fun _ => true) (d.root.size + 1) := by
    rw [results, hwalk, ← Context.results_descends]
    rfl
  rw [hresults, hc.reports hrules ho hst]
  exact Context.mem_results_iff hd (Place.shallow_root hd root hlevels) hreach hcenter hf

/-- **What lies below a directory that is brought back.** A negated rule has the last word about a
directory, which may lie in excluded ones, so that the directory is entered as an included one. On
every way on from there on which no directory is excluded by the first rule that applies to it, all
rules in scope are asked about each entry, whatever their priority. So of the files that are no rule
files to be left out and are selected as hidden or visible, exactly those are reported that the
first rule that applies to them does not exclude. -/
theorem mem_results_reincluded (hfiles : w.options.output = .files)
    (hnormal : w.options.ignored = false) (hd : d.WellFormed) (hreadable : d.unreadable = [])
    {root : Text} (hroot : d.isDirectory root = true) {s brought t : Exhaustive}
    (hs : Relation.ReflTransGen (Exhaustive.IsSubdirectory w.options d)
      (Exhaustive.root w.options d root) s)
    {rules : RuleStack} {children : List Entry}
    (henter : s.enter w.options d = .ok (rules, children))
    {e : Entry} (he : e ∈ children) {q : Nat}
    (hallow : evaluate rules.rules (s.place.candidate e) true s.excludedBy = (.allow, q))
    (hsub : s.subdirectory? w.options d rules e = some brought)
    (ht : Relation.ReflTransGen (Exhaustive.StaysIncluded w.options d) brought t)
    {rules' : RuleStack} {children' : List Entry}
    (henter' : t.enter w.options d = .ok (rules', children')) :
    ∀ f ∈ children',
      (t.exclusion rules' f =
        match evaluate rules'.rules (t.place.candidate f) f.isDirectory 0 with
        | (.drop, priority) => priority
        | _ => 0) ∧
      (w.options.isCandidate f = true → (Context.reported f ∈ w.results d root ↔
        (evaluate rules'.rules (t.place.candidate f) false 0).1 ≠ .drop)) := by
  have hincluded : t.excludedBy = 0 :=
    Exhaustive.excludedBy_of_staysIncluded (Exhaustive.excludedBy_of_allow hallow hsub) ht
  have hreach : Relation.ReflTransGen (Exhaustive.IsSubdirectory w.options d)
      (Exhaustive.root w.options d root) t :=
    (hs.tail ⟨rules, children, e, he, henter, hsub⟩).trans
      (Relation.ReflTransGen.mono (fun _ _ h => h.isSubdirectory) _ _ ht)
  intro f hf
  refine ⟨Exhaustive.exclusion_of_included hincluded rules' f, fun hcand => ?_⟩
  have hfile : f.isDirectory = false := by
    rw [Options.isCandidate, Bool.and_eq_true, Bool.and_eq_true] at hcand
    simpa using hcand.1.1
  have hverdict := Exhaustive.exclusion_eq_zero_iff hincluded rules' f
  rw [hfile] at hverdict
  rw [mem_results_iff_reports hfiles hd hreadable hroot hreach henter' hf, Exhaustive.reports,
    hcand, Bool.true_and, Options.reports, hnormal, ← hverdict]
  simp

/-! ## An exclusion that takes effect again -/

/-- A walker that excludes all directories named `a` and brings `/a/b` back. -/
def bringingBack : Walker := { options := { patterns := ["a/", "!/a/b/"] } }

/-- The stack of its rules. -/
def bringingBackRules : RuleStack :=
  RuleStack.pushAll {} (RuleStack.declared "/" bringingBack.options.patterns)

/-- The files `/a/b/a/f` and `/a/b/g`. -/
def nestedDisk : Disk :=
  ⟨.directory [("a", .directory [("b", .directory [("a", .directory [("f", .file [])]),
    ("g", .file [])])])], [], []⟩

/-- The file in a directory that is brought back is reported. -/
theorem mem_results_reincluded_below_excluded :
    Context.reported ⟨"g", "/a/b/g", false, false⟩ ∈ bringingBack.results nestedDisk "/" := by
  have hs : Exhaustive.IsSubdirectory bringingBack.options nestedDisk
      (Exhaustive.root bringingBack.options nestedDisk "/")
      ⟨⟨"/a", "/a", [], 2⟩, bringingBackRules, 1⟩ :=
    ⟨bringingBackRules, [⟨"a", "/a", true, false⟩], _, List.mem_singleton_self _, by cbv, by cbv⟩
  have hsub : Exhaustive.subdirectory? bringingBack.options nestedDisk
      ⟨⟨"/a", "/a", [], 2⟩, bringingBackRules, 1⟩ bringingBackRules ⟨"b", "/a/b", true, false⟩ =
        some ⟨⟨"/a/b", "/a/b", [], 3⟩, bringingBackRules, 0⟩ := by cbv
  have henter : Exhaustive.enter bringingBack.options nestedDisk
      ⟨⟨"/a/b", "/a/b", [], 3⟩, bringingBackRules, 0⟩ =
        .ok (bringingBackRules, [⟨"a", "/a/b/a", true, false⟩, ⟨"g", "/a/b/g", false, false⟩]) := by
    cbv
  have hexcluded : Exhaustive.enter bringingBack.options nestedDisk
      ⟨⟨"/a", "/a", [], 2⟩, bringingBackRules, 1⟩ =
        .ok (bringingBackRules, [⟨"b", "/a/b", true, false⟩]) := by cbv
  have hfile := (mem_results_reincluded (w := bringingBack) (q := 2) rfl rfl (by decide) rfl
    (by cbv) (.single hs) hexcluded List.mem_cons_self (by cbv) hsub .refl henter
    ⟨"g", "/a/b/g", false, false⟩ (by simp)).2 (by cbv)
  exact hfile.2 (by decide)

/-- **An exclusion can take effect again** below a directory that has been brought back. The
directory `/a/b` in the excluded `/a` is brought back by the rule of priority 2, and none has a
higher one. But the file `/a/b/a/f` is not reported, since `a/` excludes the directory that holds
it. -/
theorem excluded_again_below_reincluded :
    ∃ s rules children, ∃ e ∈ children, ∃ brought t rules' children', ∃ f ∈ children',
      Relation.ReflTransGen (Exhaustive.IsSubdirectory bringingBack.options nestedDisk)
        (Exhaustive.root bringingBack.options nestedDisk "/") s ∧
      s.excludedBy ≠ 0 ∧ s.enter bringingBack.options nestedDisk = .ok (rules, children) ∧
      evaluate rules.rules (s.place.candidate e) true s.excludedBy = (.allow, 2) ∧
      s.subdirectory? bringingBack.options nestedDisk rules e = some brought ∧
      Relation.ReflTransGen (Exhaustive.IsSubdirectory bringingBack.options nestedDisk)
        brought t ∧
      t.enter bringingBack.options nestedDisk = .ok (rules', children') ∧
      (∀ r ∈ rules'.rules, r.priority ≤ 2) ∧ bringingBack.options.isCandidate f = true ∧
      Context.reported f ∉ bringingBack.results nestedDisk "/" := by
  have hs : Exhaustive.IsSubdirectory bringingBack.options nestedDisk
      (Exhaustive.root bringingBack.options nestedDisk "/")
      ⟨⟨"/a", "/a", [], 2⟩, bringingBackRules, 1⟩ :=
    ⟨bringingBackRules, [⟨"a", "/a", true, false⟩], _, List.mem_singleton_self _, by cbv, by cbv⟩
  have ht : Exhaustive.IsSubdirectory bringingBack.options nestedDisk
      ⟨⟨"/a/b", "/a/b", [], 3⟩, bringingBackRules, 0⟩
      ⟨⟨"/a/b/a", "/a/b/a", [], 4⟩, bringingBackRules, 1⟩ :=
    ⟨bringingBackRules, [⟨"a", "/a/b/a", true, false⟩, ⟨"g", "/a/b/g", false, false⟩], _,
      List.mem_cons_self, by cbv, by cbv⟩
  have hresults : bringingBack.results nestedDisk "/" = [⟨"/a/b/g", false⟩] := by cbv
  refine ⟨_, bringingBackRules, [⟨"b", "/a/b", true, false⟩], _, List.mem_singleton_self _, _, _,
    bringingBackRules, [⟨"f", "/a/b/a/f", false, false⟩], _, List.mem_singleton_self _, .single hs,
    by decide, by cbv, by cbv, by cbv, .single ht, by cbv, by decide, by cbv, ?_⟩
  rw [hresults]
  decide

end Walker

end TreeSieve
