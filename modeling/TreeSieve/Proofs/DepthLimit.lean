import TreeSieve.Proofs.Failure

/-!
# The limit on the depth

The limit on the depth is compared with a number that goes up when a directory is entered and down
when it is left. In the recursion this number is the depth of a place, and it goes with the names
that the path has below the root (`Context.length_names_of_mem_entered`). So a walk with a limit
enters the directories within the limit that it would enter without one, in the same order
(`Context.entered_withDepth`). What it shows of each of them does not depend on the limit, and it
shows nothing else (`Context.walk_eq_flatMap`).
-/

namespace TreeSieve

/-- How many names a path has more than that of the root it begins with. -/
def Path.levelsBelow (root path : Text) : Nat := (names path).length - (names root).length

/-- The elements that pass a test are those that come from the elements that pass another one. -/
theorem filter_flatMap_eq {α β : Type} {l : List α} {f : α → List β} {p : β → Bool} {q : α → Bool}
    (h : ∀ a ∈ l, ∀ b ∈ f a, p b = q a) : (l.flatMap f).filter p = (l.filter q).flatMap f := by
  induction l with
  | nil => rfl
  | cons a l ih =>
    obtain ⟨ha, hl⟩ := List.forall_mem_cons.1 h
    rw [List.flatMap_cons, List.filter_append, ih hl]
    cases hq : q a with
    | true =>
      rw [List.filter_cons_of_pos hq, List.flatMap_cons,
        List.filter_eq_self.2 fun b hb => (ha b hb).trans hq]
    | false =>
      rw [List.filter_cons_of_neg (by simp [hq]),
        List.filter_eq_nil_iff.2 fun b hb => by simp [ha b hb, hq], List.nil_append]

/-- The options with another limit on the depth, or with none. -/
def Options.withDepth (o : Options) (depth : Option Nat) : Options := { o with depth }

namespace Context

variable (o : Options) (d : Disk) in
/-- What a walk shows of a directory by itself: its files, or that it fails. -/
def own (s : Context) : List Event :=
  match s.enter o d with
  | .error e => [o.failure e]
  | .ok (rules, children) => (children.filter (s.reports o rules)).map result

variable {o : Options} {d : Disk} {into : Standing → Bool}

/-- **A walk shows what it shows of the directories that it enters**, one after the other. -/
theorem walk_eq_flatMap (levels : Nat) (c : Context) :
    c.walk o d into levels = (c.entered o d into levels).flatMap (own o d) := by
  induction levels generalizing c with
  | zero => rfl
  | succ levels ih =>
    cases henter : c.enter o d with
    | error e =>
      rw [walk, henter, entered_of_error levels henter, List.flatMap_singleton, own, henter]
    | ok scope =>
      obtain ⟨rules, children⟩ := scope
      rw [walk, henter, entered_of_ok levels henter, List.flatMap_cons, own, henter,
        List.flatMap_assoc]
      exact congrArg _ (List.flatMap_congr fun c' _ => ih c')

/-! ## Depth -/

theorem depth_of_mem_subcontexts {c c' : Context} {rules : List Rule} {children : List Entry}
    (h : c' ∈ children.filterMap (c.subcontext? o d into rules)) :
    c'.place.depth = c.place.depth + 1 := by
  obtain ⟨e, -, hsub⟩ := mem_subcontexts h
  obtain ⟨-, hbelow⟩ := Place.subdirectory?_eq_some hsub
  obtain ⟨-, -, hdepth, -⟩ := Place.below?_eq_some hbelow
  exact hdepth

theorem depth_le_of_mem_entered (levels : Nat) {c : Context} :
    ∀ s ∈ c.entered o d into levels, c.place.depth ≤ s.place.depth := by
  apply of_mem_entered
  case hc => exact Nat.le_refl _
  case hbelow =>
    intro c₁ rules children hle henter c' hc'
    rw [depth_of_mem_subcontexts hc']
    exact Nat.le_succ_of_le hle

/-- The path of a directory has one name more for each step down. -/
theorem length_names_of_mem_entered (hd : d.WellFormed) (levels : Nat) {c : Context} :
    ∀ s ∈ c.entered o d into levels,
      (Path.names s.place.path).length + c.place.depth =
        (Path.names c.place.path).length + s.place.depth := by
  apply of_mem_entered
  case hc => rfl
  case hbelow =>
    intro c₁ rules children hlength henter c' hc'
    obtain ⟨own, -, -, hscan⟩ := enter_eq_ok henter
    obtain ⟨name, hname, hpath⟩ := path_of_mem_subcontexts hd hscan hc'
    rw [hpath, Path.names_join hname, List.length_append, List.length_singleton,
      depth_of_mem_subcontexts hc']
    omega

/-! ## Walks with a limit -/

variable {n : Nat}

/-- A directory at the limit has no subdirectories that are entered, and any other one has all of
them. -/
theorem subdirectory?_withDepth (p : Place) (e : Entry) :
    p.subdirectory? (o.withDepth (some n)) d e =
      if n < p.depth then none else p.subdirectory? (o.withDepth none) d e := by
  have hlimited : p.below? (o.withDepth (some n)) d e =
      if n < p.depth then none else p.below? (o.withDepth none) d e := by
    simp only [Place.below?, Options.withDepth, Option.any_some, Option.any_none,
      decide_eq_true_eq, Bool.false_eq_true, if_false]
    rfl
  have henters : (o.withDepth (some n)).entersDirectory = (o.withDepth none).entersDirectory := rfl
  rw [Place.subdirectory?, Place.subdirectory?, hlimited, henters]
  split
  · rfl
  · rw [ite_self]

theorem subcontext?_withDepth (c : Context) (rules : List Rule) (e : Entry) :
    c.subcontext? (o.withDepth (some n)) d into rules e =
      if n < c.place.depth then none else c.subcontext? (o.withDepth none) d into rules e := by
  rw [subcontext?, subcontext?, subdirectory?_withDepth]
  by_cases hlimit : n < c.place.depth
  · rw [if_pos hlimit, if_pos hlimit, Option.map_none, ite_self]
  · rw [if_neg hlimit, if_neg hlimit]

/-- Whether a directory lies at most the given number of levels below the root. -/
def isWithin (n : Nat) (s : Context) : Bool := s.place.depth ≤ n + 1

/-- **A walk with a limit enters the directories within it**: those that it enters without one and
that are not too deep. -/
theorem entered_withDepth (levels : Nat) {c : Context} (hc : c.isWithin n = true) :
    c.entered (o.withDepth (some n)) d into levels =
      (c.entered (o.withDepth none) d into levels).filter (isWithin n) := by
  induction levels generalizing c with
  | zero => rfl
  | succ levels ih =>
    have hsame : c.enter (o.withDepth (some n)) d = c.enter (o.withDepth none) d := rfl
    cases henter : c.enter (o.withDepth none) d with
    | error e =>
      rw [entered_of_error levels henter, entered_of_error levels (hsame.trans henter),
        List.filter_cons_of_pos hc, List.filter_nil]
    | ok scope =>
      obtain ⟨rules, children⟩ := scope
      rw [entered_of_ok levels henter, entered_of_ok levels (hsame.trans henter),
        List.filter_cons_of_pos hc, List.filter_flatMap]
      congr 1
      simp only [funext (subcontext?_withDepth c rules)]
      by_cases hlimit : n < c.place.depth
      · -- What lies below here lies too deep.
        simp only [if_pos hlimit, List.filterMap_none, List.flatMap_nil]
        symm
        apply List.flatMap_eq_nil_iff.2
        intro c' hc'
        apply List.filter_eq_nil_iff.2
        intro s hs
        have hdepth := depth_of_mem_subcontexts hc'
        have hle := depth_le_of_mem_entered levels s hs
        simp only [isWithin, decide_eq_true_eq]
        omega
      · simp only [if_neg hlimit]
        apply List.flatMap_congr
        intro c' hc'
        have hdepth := depth_of_mem_subcontexts hc'
        exact ih (decide_eq_true (by omega))

/-! ## Walks of a root -/

/-- The files that a walk shows of a directory by itself. -/
theorem names_of_mem_own (hd : d.WellFormed) {s : Context} {r : Result}
    (hr : r ∈ (s.own o d).filterMap Event.result?) :
    ∃ name, Path.names r.path = Path.names s.place.path ++ [name] := by
  obtain ⟨event, hevent, hresult⟩ := List.mem_filterMap.1 hr
  rw [own] at hevent
  cases henter : s.enter o d with
  | error e =>
    rw [henter] at hevent
    rw [List.mem_singleton.1 hevent, Options.result?_failure] at hresult
    cases hresult
  | ok scope =>
    obtain ⟨rules, children⟩ := scope
    obtain ⟨own, -, -, hscan⟩ := enter_eq_ok henter
    rw [henter] at hevent
    obtain ⟨e, he, rfl⟩ := List.mem_map.1 hevent
    cases hresult
    exact ⟨e.name, names_reported hd hscan (List.mem_of_mem_filter he)⟩

section Root

variable (hd : d.WellFormed) {root : Text}

include hd

theorem length_names_of_mem_enteredFrom {s : Context} (hs : s ∈ enteredFrom o d root) :
    (Path.names s.place.path).length + 1 = (Path.names root).length + s.place.depth := by
  rw [enteredFrom] at hs
  split at hs
  · exact length_names_of_mem_entered hd _ s hs
  · cases hs

/-- The directories within the limit, by their paths. -/
theorem levelsBelow_le_iff {s : Context} (hs : s ∈ enteredFrom o d root) :
    Path.levelsBelow root s.place.path ≤ n ↔ s.isWithin n = true := by
  have hnames := length_names_of_mem_enteredFrom hd hs
  rw [Path.levelsBelow, isWithin, decide_eq_true_iff]
  omega

/-- A file lies one level below its directory. -/
theorem levelsBelow_own_le_iff {s : Context} (hs : s ∈ enteredFrom o d root) {r : Result}
    (hr : r ∈ (s.own o d).filterMap Event.result?) :
    Path.levelsBelow root r.path ≤ n + 1 ↔ s.isWithin n = true := by
  obtain ⟨name, hname⟩ := names_of_mem_own hd hr
  have hnames := length_names_of_mem_enteredFrom hd hs
  rw [Path.levelsBelow, isWithin, decide_eq_true_iff, hname, List.length_append,
    List.length_singleton]
  omega

end Root

theorem enteredFrom_withDepth (root : Text) : enteredFrom (o.withDepth (some n)) d root =
    (enteredFrom (o.withDepth none) d root).filter (isWithin n) := by
  rw [enteredFrom, enteredFrom]
  split
  · exact entered_withDepth _ (decide_eq_true (Nat.succ_le_succ (Nat.zero_le n)))
  · rfl

end Context

namespace Walker

/-- The walker with another limit on the depth, or with none. -/
def withDepth (w : Walker) (depth : Option Nat) : Walker :=
  { w with options := w.options.withDepth depth }

section Report

variable {w : Walker} (hfiles : w.options.output = .files) (hreport : w.options.onError = .report)
  {d : Disk} (hd : d.WellFormed) {root : Text} (hroot : d.isDirectory root = true)

include hfiles hreport hd hroot

theorem walk_files_of_isDirectory : (w.walk d root none).1 =
    (Context.root w.options d root).walk w.options d w.options.descends (d.root.size + 1) := by
  rw [walk_eq hreport hd (Nat.lt_succ_self _), Walk.listing, if_pos (Disk.has_of_isDirectory hroot),
    if_pos hroot, Context.tree, Options.listing, hfiles]

theorem results_eq_flatMap : w.results d root =
    (Context.enteredFrom w.options d root).flatMap fun s =>
      (s.own w.options d).filterMap Event.result? := by
  rw [results, walk_files_of_isDirectory hfiles hreport hd hroot, Context.walk_eq_flatMap,
    List.filterMap_flatMap, Context.enteredFrom, if_pos hroot]

theorem errors_eq_filterMap : (w.walk d root none).1.filterMap Event.error? =
    (Context.enteredFrom w.options d root).filterMap (Context.failure? w.options d) := by
  rw [walk_files_of_isDirectory hfiles hreport hd hroot, Context.errors_walk hreport,
    Context.enteredFrom, if_pos hroot]

/-- **The limit on the depth is a filter.** With the limit `n`, a walk finds of the files that it
finds without a limit those with at most `n + 1` names below the root. It reports one error for each
directory that fails among those with at most `n` names below the root that the walk without a limit
enters, which reports one for each that fails at all. -/
theorem walk_withDepth (n : Nat) :
    ((w.withDepth (some n)).results d root =
      ((w.withDepth none).results d root).filter fun r => Path.levelsBelow root r.path ≤ n + 1) ∧
    ((w.withDepth none).walk d root none).1.filterMap Event.error? =
      (Context.enteredFrom (w.withDepth none).options d root).filterMap
        (Context.failure? w.options d) ∧
    ((w.withDepth (some n)).walk d root none).1.filterMap Event.error? =
      ((Context.enteredFrom (w.withDepth none).options d root).filter
        fun s => Path.levelsBelow root s.place.path ≤ n).filterMap
        (Context.failure? w.options d) := by
  have hentered : Context.enteredFrom (w.withDepth (some n)).options d root =
      (Context.enteredFrom (w.withDepth none).options d root).filter (Context.isWithin n) :=
    Context.enteredFrom_withDepth root
  refine ⟨?_, errors_eq_filterMap (w := w.withDepth none) hfiles hreport hd hroot, ?_⟩
  · rw [results_eq_flatMap (w := w.withDepth (some n)) hfiles hreport hd hroot,
      results_eq_flatMap (w := w.withDepth none) hfiles hreport hd hroot, hentered]
    symm
    apply filter_flatMap_eq
    intro s hs r hr
    rw [Bool.eq_iff_iff, decide_eq_true_iff]
    exact Context.levelsBelow_own_le_iff hd hs hr
  · rw [errors_eq_filterMap (w := w.withDepth (some n)) hfiles hreport hd hroot, hentered]
    refine congrArg _ (List.filter_congr fun s hs => ?_)
    rw [Bool.eq_iff_iff, decide_eq_true_iff]
    exact (Context.levelsBelow_le_iff hd hs).symm

end Report

/-- With the limit 1, neither the file in `a/b` is found nor the error in it reported. -/
theorem walk_withDepth_one :
    let w : Walker := { options := {} }
    let d : Disk := ⟨.directory [("a", .directory [("b", .directory [("c", .file []),
      ("v", .directory [])]), ("f", .file [])]), ("g", .file []), ("u", .directory [])], [],
      [["a", "b", "v"], ["u"]]⟩
    (w.withDepth (some 1)).results d "/" = [⟨"/g", false⟩, ⟨"/a/f", false⟩] ∧
      ((w.withDepth none).walk d "/" none).1.filterMap Event.error? =
        [.unreadable "/a/b/v" (.ofFault .denied), .unreadable "/u" (.ofFault .denied)] ∧
      ((w.withDepth (some 1)).walk d "/" none).1.filterMap Event.error? =
        [.unreadable "/u" (.ofFault .denied)] := by
  intro w d
  obtain ⟨hresults, hall, herrors⟩ :=
    walk_withDepth (w := w) rfl rfl (d := d) (by decide)
      (show d.isDirectory "/" = true by cbv) 1
  exact ⟨hresults.trans (by cbv), hall.trans (by cbv), herrors.trans (by cbv)⟩

end Walker

end TreeSieve
