import TreeSieve.Proofs.Delivery

/-!
# Pruning is invisible

A walk does not enter an excluded directory below which nothing can be reported, does not ask the
rules about what lies in a directory where none of them can decide, and does not look at further
files of a directory that is live already. `Exhaustive` is the walk that saves nothing: it enters
every directory that it can come to, and judges every entry by the rules above the priority that
excludes the directory. `Walker.results_walk_eq_exhaustive` says that both report the same.

The proof goes through the recursion with lexically scoped rules. There a directory that is not
entered is lost (`Standing.IsLost`), and everything below it is lost too.
-/

namespace TreeSieve

theorem flatMap_filterMap_cons {α β δ : Type} (f : α → Option β) (g : β → List δ) (a : α)
    (l : List α) :
    ((a :: l).filterMap f).flatMap g = (f a).elim [] g ++ (l.filterMap f).flatMap g := by
  rw [List.filterMap_cons]
  cases f a with
  | none => rfl
  | some b => exact List.flatMap_cons

/-- What is gathered from some elements of a list depends only on what each of them gives. -/
theorem flatMap_filterMap_congr {α β γ δ : Type} {l : List α} {f : α → Option β}
    {f' : α → Option γ} {g : β → List δ} {g' : γ → List δ}
    (h : ∀ a ∈ l, (f a).elim [] g = (f' a).elim [] g') :
    (l.filterMap f).flatMap g = (l.filterMap f').flatMap g' := by
  induction l with
  | nil => rfl
  | cons a l ih =>
    rw [flatMap_filterMap_cons, flatMap_filterMap_cons, h a List.mem_cons_self,
      ih fun b hb => h b (List.mem_cons_of_mem a hb)]

/-- A directory with the stack of rules from above and the priority of the rule that excludes it,
or zero. -/
structure Exhaustive where
  place : Place
  rules : RuleStack
  excludedBy : Nat
  deriving DecidableEq

namespace Exhaustive

variable (o : Options) (d : Disk)

/-- The root of a walk. The patterns are on the stack from the beginning. -/
def root (path : Text) : Exhaustive :=
  { place := Place.root o d path
    rules := RuleStack.pushAll {} (RuleStack.declared (d.absolute path) o.patterns)
    excludedBy := 0 }

/-- The stack with the rules of the directory itself, and its entries. -/
def enter (s : Exhaustive) : Except WalkError (RuleStack × List Entry) :=
  match s.place.ownRules o d (s.excludedBy != 0) with
  | .error e => .error e
  | .ok own =>
    match s.place.scan o d with
    | .error fault => .error (.unreadable s.place.path (.ofFault fault))
    | .ok children => .ok (s.rules.pushAll own.reverse, children)

/-- The priority of the rule that excludes an entry, or zero. -/
def exclusion (s : Exhaustive) (rules : RuleStack) (e : Entry) : Nat :=
  TreeSieve.judge rules.rules (s.place.candidate e) e.isDirectory s.excludedBy

/-- Whether an entry is a file that is reported. -/
def reports (s : Exhaustive) (rules : RuleStack) (e : Entry) : Bool :=
  o.isCandidate e && o.reports (s.exclusion rules e)

/-- A subdirectory that the walk can come to. -/
def subdirectory? (s : Exhaustive) (rules : RuleStack) (e : Entry) : Option Exhaustive :=
  (s.place.subdirectory? o d e).map fun place =>
    { place, rules, excludedBy := s.exclusion rules e }

/-- The reported files and errors of a walk that goes down a number of levels. -/
def walk : (levels : Nat) → Exhaustive → List Event
  | 0, _ => []
  | levels + 1, s =>
    match s.enter o d with
    | .error e => [o.failure e]
    | .ok (rules, children) =>
      (children.filter (s.reports o rules)).map Context.result ++
        (children.filterMap (s.subdirectory? o d rules)).flatMap (walk levels)

/-- The directories with reported files in or below them. -/
def live : (levels : Nat) → Exhaustive → List Text
  | 0, _ => []
  | levels + 1, s =>
    match s.enter o d with
    | .error _ => []
    | .ok (rules, children) =>
      let below := (children.filterMap (s.subdirectory? o d rules)).reverse.flatMap (live levels)
      if children.any (s.reports o rules) || !below.isEmpty then s.place.path :: below else []

/-- All that the walk of the directory at a path shows. -/
def tree (levels : Nat) (path : Text) : List Event :=
  o.listing ((root o d path).walk o d levels) ((root o d path).live o d levels)

/-- All entries in and below a directory, with the priorities that exclude them. -/
def judged : (levels : Nat) → Exhaustive → List (Entry × Nat)
  | 0, _ => []
  | levels + 1, s =>
    match s.enter o d with
    | .error _ => []
    | .ok (rules, children) =>
      (children.map fun e => (e, s.exclusion rules e)) ++
        (children.filterMap (s.subdirectory? o d rules)).flatMap (judged levels)

variable {o d}

/-! ## Below an exclusion that nothing outranks -/

theorem enter_excluded {s : Exhaustive} (hp : s.excludedBy ≠ 0) {rules : RuleStack}
    {children : List Entry} (h : s.enter o d = .ok (rules, children)) : rules = s.rules := by
  have hexcl : (s.excludedBy != 0) = true := by simpa using hp
  rw [enter, hexcl, Place.ownRules_excluded] at h
  cases hscan : s.place.scan o d with
  | error fault => rw [hscan] at h; cases h
  | ok found =>
    rw [hscan] at h
    cases h
    rfl

/-- **No entry at any depth is included** below a directory that is excluded where no negated rule
has a higher priority. -/
theorem judged_of_not_hasNegatedAbove (levels : Nat) {s : Exhaustive} (hp : s.excludedBy ≠ 0)
    (hneg : hasNegatedAbove s.rules.rules s.excludedBy = false) :
    ∀ x ∈ s.judged o d levels, x.2 ≠ 0 := by
  induction levels generalizing s with
  | zero =>
    intro x hx
    cases hx
  | succ levels ih =>
    intro x hx
    rw [judged] at hx
    cases henter : s.enter o d with
    | error e =>
      rw [henter] at hx
      cases hx
    | ok scope =>
      obtain ⟨rules, children⟩ := scope
      rw [henter] at hx
      obtain rfl := enter_excluded hp henter
      -- No rules come on top here, and every priority that excludes an entry is at least as high.
      have hrises : ∀ e : Entry, s.exclusion s.rules e ≠ 0 ∧
          hasNegatedAbove s.rules.rules (s.exclusion s.rules e) = false := by
        intro e
        exact judge_of_not_hasNegatedAbove hp hneg _ _
      rcases List.mem_append.1 hx with hown | hbelow
      · obtain ⟨e, -, rfl⟩ := List.mem_map.1 hown
        exact (hrises e).1
      · obtain ⟨s', hs', hx⟩ := List.mem_flatMap.1 hbelow
        obtain ⟨e, -, hsub⟩ := List.mem_filterMap.1 hs'
        obtain ⟨place, -, rfl⟩ := Option.map_eq_some_iff.1 hsub
        exact ih (hrises e).1 (hrises e).2 x hx

/-! ## Judging by rules instead of priorities -/

/-- A directory of the exhaustive walk and one of the recursion that stand for the same. -/
structure Stands (s : Exhaustive) (c : Context) : Prop where
  place : s.place = c.place
  rules : s.rules.rules.map (·.rule) = c.rules
  ordered : s.rules.Ordered
  standing : Agrees s.rules.rules s.excludedBy c.standing

theorem stands_root (path : Text) : Stands (root o d path) (Context.root o d path) := by
  obtain ⟨new, hrules, hmap, -⟩ :=
    RuleStack.rules_pushAll {} (RuleStack.declared (d.absolute path) o.patterns)
  refine ⟨rfl, ?_, RuleStack.Ordered.empty.pushAll _, .included⟩
  rw [root, hrules, List.append_nil]
  exact hmap

section Stands

variable {s : Exhaustive} {c : Context} (h : Stands s c)

include h

theorem Stands.enter : match c.enter o d with
    | .error e => s.enter o d = .error e
    | .ok (rules, children) => ∃ stack : RuleStack, s.enter o d = .ok (stack, children) ∧
      stack.rules.map (·.rule) = rules ∧ stack.Ordered ∧
        Agrees stack.rules s.excludedBy c.standing := by
  have hexcl : (s.excludedBy != 0) = c.standing.isExcluded := h.standing.isExcluded.symm
  have henter : s.enter o d =
      match c.ownRules o d with
      | .error e => .error e
      | .ok own =>
        match c.place.scan o d with
        | .error fault => .error (.unreadable c.place.path (.ofFault fault))
        | .ok children => .ok (s.rules.pushAll own.reverse, children) := by
    rw [Exhaustive.enter, hexcl, h.place, Context.ownRules]
  rw [henter, Context.enter]
  cases hown : c.ownRules o d with
  | error e => rfl
  | ok own =>
    cases c.place.scan o d with
    | error fault => rfl
    | ok children =>
      obtain ⟨new, hrules, hmap, -⟩ := RuleStack.rules_pushAll s.rules own.reverse
      rw [List.reverse_reverse] at hmap
      refine ⟨_, rfl, ?_, h.ordered.pushAll _, ?_⟩
      · rw [hrules, List.map_append, hmap, h.rules]
      -- An excluded directory's rule file is not read, so its priority keeps its meaning.
      · rw [hrules]
        apply h.standing.append
        intro hp
        rw [Context.ownRules, ← hexcl, bne_iff_ne.2 hp, Place.ownRules_excluded] at hown
        cases hown
        exact List.map_eq_nil_iff.1 hmap

variable {stack : RuleStack} {rules : List Rule} (hrules : stack.rules.map (·.rule) = rules)
  (ho : stack.Ordered) (hst : Agrees stack.rules s.excludedBy c.standing)

include hrules ho hst

theorem Stands.exclusion (e : Entry) :
    Agrees stack.rules (s.exclusion stack e) (c.judge rules e) := by
  rw [Exhaustive.exclusion, Context.judge, h.place, ← hrules]
  exact hst.judge ho _ _

theorem Stands.reports : s.reports o stack = c.reports o rules := by
  funext e
  rw [Exhaustive.reports, Context.reports, (h.exclusion hrules ho hst e).isExcluded]
  rfl

variable (o d) in
theorem Stands.below {β : Type} {f : Exhaustive → List β} {g : Context → List β}
    (hfg : ∀ s' c', Stands s' c' → f s' = g c') (entries : List Entry) :
    (entries.filterMap (s.subdirectory? o d stack)).flatMap f =
      (entries.filterMap (c.subcontext? o d (fun _ => true) rules)).flatMap g := by
  apply flatMap_filterMap_congr
  intro e _
  rw [Exhaustive.subdirectory?, Context.subcontext?, if_pos rfl, h.place]
  cases c.place.subdirectory? o d e with
  | none => rfl
  | some place => exact hfg _ _ ⟨rfl, hrules, ho, h.exclusion hrules ho hst e⟩

end Stands

theorem walk_eq_context (levels : Nat) {s : Exhaustive} {c : Context} (h : Stands s c) :
    s.walk o d levels = c.walk o d (fun _ => true) levels := by
  induction levels generalizing s c with
  | zero => rfl
  | succ levels ih =>
    have henter := h.enter (o := o) (d := d)
    rw [walk, Context.walk]
    cases hc : c.enter o d with
    | error e =>
      rw [hc] at henter
      rw [henter]
    | ok scope =>
      obtain ⟨rules, children⟩ := scope
      rw [hc] at henter
      obtain ⟨stack, hs, hrules, ho, hst⟩ := henter
      have hbelow := h.below o d hrules ho hst (fun s' c' h' => ih h') children
      rw [hs]
      simp only [h.reports hrules ho hst, hbelow]

theorem live_eq_context (levels : Nat) {s : Exhaustive} {c : Context} (h : Stands s c) :
    s.live o d levels = c.live o d (fun _ => true) levels := by
  induction levels generalizing s c with
  | zero => rfl
  | succ levels ih =>
    have henter := h.enter (o := o) (d := d)
    rw [live, Context.live]
    cases hc : c.enter o d with
    | error e =>
      rw [hc] at henter
      rw [henter]
    | ok scope =>
      obtain ⟨rules, children⟩ := scope
      rw [hc] at henter
      obtain ⟨stack, hs, hrules, ho, hst⟩ := henter
      have hbelow := h.below o d hrules ho hst (fun s' c' h' => ih h') children.reverse
      rw [hs]
      simp only [h.reports hrules ho hst, ← List.filterMap_reverse, hbelow, h.place]

end Exhaustive

/-! ## Leaving out what is lost -/

namespace Context

variable {o : Options} {d : Disk} {into : Standing → Bool}

section IsLost

variable (hignored : o.ignored = false) {c : Context} (hlost : c.standing.IsLost)

include hlost in
theorem isLost_of_mem_subcontexts {rules : List Rule} {children : List Entry} {c' : Context}
    (h : c' ∈ children.filterMap (c.subcontext? o d into rules)) : c'.standing.IsLost := by
  obtain ⟨e, -, hsub⟩ := List.mem_filterMap.1 h
  rw [subcontext?] at hsub
  split at hsub
  · obtain ⟨place, -, rfl⟩ := Option.map_eq_some_iff.1 hsub
    exact hlost.judge rules _ _
  · cases hsub

include hignored hlost

theorem reports_of_isLost (rules : List Rule) (e : Entry) : c.reports o rules e = false := by
  have hexcl : (c.judge rules e).isExcluded = true := (hlost.judge rules _ _).isExcluded
  rw [reports, hexcl, hignored]
  exact Bool.and_false _

theorem results_of_isLost (levels : Nat) : c.results o d into levels = [] := by
  induction levels generalizing c with
  | zero => rfl
  | succ levels ih =>
    cases henter : c.enter o d with
    | error e => exact results_of_error levels henter
    | ok scope =>
      obtain ⟨rules, children⟩ := scope
      have hnone : children.filter (c.reports o rules) = [] :=
        List.filter_eq_nil_iff.2 fun e _ => by simp [reports_of_isLost hignored hlost rules e]
      rw [results_of_ok levels henter, hnone]
      apply List.flatMap_eq_nil_iff.2
      intro c' hc'
      exact ih (isLost_of_mem_subcontexts hlost hc')

theorem live_of_isLost (levels : Nat) : c.live o d into levels = [] := by
  induction levels generalizing c with
  | zero => rfl
  | succ levels ih =>
    cases henter : c.enter o d with
    | error e => exact live_of_error levels henter
    | ok scope =>
      obtain ⟨rules, children⟩ := scope
      have hany : children.any (c.reports o rules) = false :=
        List.any_eq_false.2 fun e _ => by simp [reports_of_isLost hignored hlost rules e]
      have hbelow : (children.filterMap (c.subcontext? o d into rules)).reverse.flatMap
          (live o d into levels) = [] := by
        apply List.flatMap_eq_nil_iff.2
        intro c' hc'
        exact ih (isLost_of_mem_subcontexts hlost (List.mem_reverse.1 hc'))
      rw [live_of_ok levels henter, hany, hbelow]
      rfl

end IsLost

/-- What subdirectories give if those that are lost give nothing. -/
theorem flatMap_subcontexts {β : Type} {f g : Context → List β} (hfg : ∀ c, f c = g c)
    (hlost : ∀ c : Context, o.ignored = false → c.standing.IsLost → g c = []) (c : Context)
    (rules : List Rule) (entries : List Entry) :
    (entries.filterMap (c.subcontext? o d o.descends rules)).flatMap f =
      (entries.filterMap (c.subcontext? o d (fun _ => true) rules)).flatMap g := by
  apply flatMap_filterMap_congr
  intro e _
  rw [subcontext?, subcontext?, if_pos rfl]
  cases hinto : o.descends (c.judge rules e) with
  | true =>
    rw [if_pos rfl]
    cases c.place.subdirectory? o d e with
    | none => rfl
    | some place => exact hfg _
  | false =>
    obtain ⟨hst, hignored⟩ := Standing.isLost_of_descends hinto
    rw [if_neg Bool.false_ne_true]
    cases c.place.subdirectory? o d e with
    | none => rfl
    | some place => exact (hlost _ hignored hst).symm

/-- **Lost directories can be left out**: nothing in or below them is reported. -/
theorem results_descends (levels : Nat) (c : Context) :
    c.results o d o.descends levels = c.results o d (fun _ => true) levels := by
  induction levels generalizing c with
  | zero => rfl
  | succ levels ih =>
    cases henter : c.enter o d with
    | error e => rw [results_of_error levels henter, results_of_error levels henter]
    | ok scope =>
      obtain ⟨rules, children⟩ := scope
      rw [results_of_ok levels henter, results_of_ok levels henter]
      rw [flatMap_subcontexts ih fun c' hignored hlost => results_of_isLost hignored hlost levels]

theorem live_descends (levels : Nat) (c : Context) :
    c.live o d o.descends levels = c.live o d (fun _ => true) levels := by
  induction levels generalizing c with
  | zero => rfl
  | succ levels ih =>
    cases henter : c.enter o d with
    | error e => rw [live_of_error levels henter, live_of_error levels henter]
    | ok scope =>
      obtain ⟨rules, children⟩ := scope
      have hbelow := flatMap_subcontexts (d := d) ih
        (fun c' hignored hlost => live_of_isLost hignored hlost levels) c rules children.reverse
      rw [live_of_ok levels henter, live_of_ok levels henter]
      simp only [← List.filterMap_reverse, hbelow]

end Context

namespace Walker

/-- **Pruning is invisible.** A walk reports the same as the exhaustive one, in either mode. And
where no negated rule has a higher priority than the one that excludes a directory, no entry at any
depth below it is included. -/
theorem results_walk_eq_exhaustive {w : Walker} (hreport : w.options.onError = .report) {d : Disk}
    (hd : d.WellFormed) {levels : Nat} (hlevels : d.root.size < levels) :
    (∀ root, w.results d root =
      (Walk.listing w.options d (Exhaustive.tree w.options d levels) root).filterMap
        Event.result?) ∧
    ∀ s : Exhaustive, s.excludedBy ≠ 0 → hasNegatedAbove s.rules.rules s.excludedBy = false →
      ∀ n, ∀ x ∈ s.judged w.options d n, x.2 ≠ 0 := by
  refine ⟨?_, ?_⟩
  · intro root
    have hstands := Exhaustive.stands_root (o := w.options) (d := d) root
    have htree : (Context.tree w.options d w.options.descends levels root).filterMap
        Event.result? = (Exhaustive.tree w.options d levels root).filterMap Event.result? := by
      rw [Context.tree, Exhaustive.tree, Exhaustive.walk_eq_context levels hstands,
        Exhaustive.live_eq_context levels hstands, Context.live_descends]
      rw [Options.results_listing, Options.results_listing]
      cases w.options.output with
      | files => exact Context.results_descends levels _
      | directories => rfl
    rw [results, walk_eq hreport hd hlevels, Walk.listing, Walk.listing]
    split
    · split
      · exact htree
      · rfl
    · rfl
  · intro s hp hneg n
    exact Exhaustive.judged_of_not_hasNegatedAbove n hp hneg

/-- An excluded directory with a file, which only the exhaustive walk looks at. -/
theorem results_walk_eq_exhaustive_excluded :
    results { options := { ruleFileName := some "r" } }
        ⟨.directory [("x", .directory [("y", .file [])]), ("r", .file (Utf8.encode "x/")),
          ("z", .file [])], [], []⟩ "/" = [⟨"/z", false⟩] ∧
      ∀ x ∈ Exhaustive.judged { ruleFileName := some "r" }
          ⟨.directory [("x", .directory [("y", .file [])]), ("r", .file (Utf8.encode "x/")),
            ("z", .file [])], [], []⟩ 5
          ⟨⟨"/x", "/x", [], 2⟩, RuleStack.pushAll {} (RuleStack.declared "/" ["x/"]), 1⟩,
        x.2 ≠ 0 := by
  have hlevels : Node.size (.directory [("x", .directory [("y", .file [])]),
      ("r", .file (Utf8.encode "x/")), ("z", .file [])]) < 6 := by decide
  refine ⟨?_, ?_⟩
  · rw [(results_walk_eq_exhaustive rfl (by decide) hlevels).1]
    cbv
  · exact (results_walk_eq_exhaustive (w := { options := { ruleFileName := some "r" } }) rfl
      (by decide) hlevels).2 _ (by decide) (by cbv) 5

end Walker

end TreeSieve
