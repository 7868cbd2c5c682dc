import TreeSieve.Proofs.Place
import TreeSieve.RuleStack

/-!
# The recursive walk with lexically scoped rules

The walk of a directory tree as one would write it down: a directory puts the rules of its own rule
file in front of those that it receives, judges its entries in the order of their names, emits the
files that are reported and then walks its subdirectories, each with the rules in scope here. No
rule has a number, and nothing is undone when the walk of a directory is over.

An excluded directory knows the rules that outrank the one that excluded it (`Standing.excluded`),
and only these are asked about what lies below it. Which subdirectories are walked is a parameter:
`Options.descends` leaves out those where nothing can be brought back, and `fun _ => true` leaves
out none.
-/

namespace TreeSieve

/-! ## Judging without numbers -/

/-- Whether a rule applies to a path, which is that of a directory or not. -/
def Rule.applies (r : Rule) (path : Text) (isDirectory : Bool) : Bool :=
  (!r.directoryOnly || isDirectory) && r.accepts path

/-- What the rules have made of a file or directory. -/
inductive Standing where
  | included
  /-- Excluded by a rule that the given ones outrank, newest first. -/
  | excluded (above : List Rule)
  deriving DecidableEq

namespace Standing

def isExcluded : Standing → Bool
  | included => false
  | excluded _ => true

/-- The rules that can decide about what lies below. -/
def consulted (rules : List Rule) : Standing → List Rule
  | included => rules
  | excluded above => above

/-- The standing of an entry of a directory with the given standing. The first rule that applies
decides, and without one the entry stands like its directory. -/
def judge (rules : List Rule) (s : Standing) (path : Text) (isDirectory : Bool) : Standing :=
  match (s.consulted rules).find? (·.applies path isDirectory) with
  | none => s
  | some r =>
    if r.negated then included
    else excluded ((s.consulted rules).takeWhile (!·.applies path isDirectory))

/-- Nothing below can be brought back. -/
def IsLost : Standing → Prop
  | included => False
  | excluded above => ∀ r ∈ above, r.negated = false

theorem IsLost.isExcluded {s : Standing} (h : s.IsLost) : s.isExcluded = true := by
  cases s with
  | included => exact h.elim
  | excluded above => rfl

/-- What is lost stays lost below. -/
theorem IsLost.judge {s : Standing} (h : s.IsLost) (rules : List Rule) (path : Text)
    (isDirectory : Bool) : (s.judge rules path isDirectory).IsLost := by
  cases s with
  | included => exact h.elim
  | excluded above =>
    rw [Standing.judge, consulted]
    split
    · exact h
    · next r hfind =>
      have hr := h r (List.mem_of_find?_eq_some hfind)
      rw [hr, if_neg Bool.false_ne_true]
      intro q hq
      exact h q ((List.takeWhile_sublist _).subset hq)

end Standing

/-- Whether directories with the given standing are walked: all that are included, and of the others
those below which something can be reported. -/
def Options.descends (o : Options) : Standing → Bool
  | .included => true
  | .excluded above => o.ignored || above.any (·.negated)

theorem Standing.IsLost.descends {s : Standing} (h : s.IsLost) (o : Options) :
    o.descends s = o.ignored := by
  cases s with
  | included => exact h.elim
  | excluded above =>
    have hany : above.any (·.negated) = false := List.any_eq_false.2 fun r hr => by simp [h r hr]
    rw [Options.descends, hany, Bool.or_false]

theorem Standing.isLost_of_descends {s : Standing} {o : Options} (h : o.descends s = false) :
    s.IsLost ∧ o.ignored = false := by
  cases s with
  | included => cases h
  | excluded above =>
    rw [Options.descends, Bool.or_eq_false_iff] at h
    refine ⟨fun r hr => ?_, h.1⟩
    simpa using List.any_eq_false.1 h.2 r hr

/-- The event of an error. -/
def Options.failure (o : Options) (e : WalkError) : Event :=
  match o.onError with
  | .report => .error e
  | .raise => .raised e

@[simp] theorem Options.result?_failure (o : Options) (e : WalkError) :
    (o.failure e).result? = none := by
  rw [Options.failure]
  cases o.onError <;> rfl

/-- Whether an entry is a file that is reported unless the rules forbid it. -/
def Options.isCandidate (o : Options) (e : Entry) : Bool :=
  !e.isDirectory && !o.skipsRuleFile e.name && o.selectsFile e.isHidden

/-- All that the walk of a directory shows in the end: its events if files are reported, and
otherwise its errors and then the directories. -/
def Options.listing (o : Options) (events : List Event) (directories : List Text) : List Event :=
  match o.output with
  | .files => events
  | .directories =>
    events.filter (·.result?.isNone) ++ directories.map fun path => .result ⟨Path.plain path, true⟩

theorem Options.results_listing (o : Options) (events : List Event) (directories : List Text) :
    (o.listing events directories).filterMap Event.result? =
      match o.output with
      | .files => events.filterMap Event.result?
      | .directories => directories.map fun path => ⟨Path.plain path, true⟩ := by
  have hnone : (events.filter (·.result?.isNone)).filterMap Event.result? = [] := by
    apply List.filterMap_eq_nil_iff.2
    intro e he
    simpa using (List.mem_filter.1 he).2
  rw [Options.listing]
  cases o.output with
  | files => rfl
  | directories =>
    simp only [List.filterMap_append, hnone, List.nil_append, List.filterMap_map]
    exact congrFun (List.filterMap_eq_map (f := fun path => (⟨Path.plain path, true⟩ : Result))) _

/-- The rules of a directory's rule file, newest first. An excluded directory's file is not read. -/
def Place.ownRules (o : Options) (d : Disk) (p : Place) (isExcluded : Bool) :
    Except WalkError (List Rule) :=
  match o.ruleFileName with
  | none => .ok []
  | some name =>
    if isExcluded then .ok []
    else
      let file := Path.join p.absolute name
      if d.isFile file then
        match d.read file with
        | .ok content =>
          .ok (RuleStack.declared p.absolute (RuleStack.fileLines content)).reverse
        | .error fault => .error (.unreadable (Path.join p.path name) (.ofFault fault))
      else .ok []

theorem Place.ownRules_excluded (o : Options) (d : Disk) (p : Place) :
    p.ownRules o d true = .ok [] := by
  rw [Place.ownRules]
  cases o.ruleFileName <;> rfl

/-! ## The walk -/

/-- A directory with the rules that are in scope around it. -/
structure Context where
  place : Place
  /-- The rules of the directories above, newest first. -/
  rules : List Rule
  standing : Standing
  deriving DecidableEq

namespace Context

variable (o : Options) (d : Disk)

/-- The root of a walk. The patterns are in scope from the beginning. -/
def root (path : Text) : Context :=
  { place := Place.root o d path
    rules := (RuleStack.declared (d.absolute path) o.patterns).reverse
    standing := .included }

/-- The rules of the directory's own rule file. -/
def ownRules (s : Context) : Except WalkError (List Rule) :=
  s.place.ownRules o d s.standing.isExcluded

/-- The rules in scope in the directory, and its entries. -/
def enter (s : Context) : Except WalkError (List Rule × List Entry) :=
  match s.ownRules o d with
  | .error e => .error e
  | .ok own =>
    match s.place.scan o d with
    | .error fault => .error (.unreadable s.place.path (.ofFault fault))
    | .ok children => .ok (own ++ s.rules, children)

/-- The standing of an entry. -/
def judge (s : Context) (rules : List Rule) (e : Entry) : Standing :=
  s.standing.judge rules (s.place.candidate e) e.isDirectory

/-- Whether an entry is a file that is reported. -/
def reports (s : Context) (rules : List Rule) (e : Entry) : Bool :=
  o.isCandidate e && ((s.judge rules e).isExcluded == o.ignored)

/-- The context of an entry that is walked. -/
def subcontext? (into : Standing → Bool) (s : Context) (rules : List Rule) (e : Entry) :
    Option Context :=
  if into (s.judge rules e) then
    (s.place.subdirectory? o d e).map fun place => { place, rules, standing := s.judge rules e }
  else none

/-- The report of a file. -/
def reported (e : Entry) : Result := ⟨Path.plain e.path, false⟩

/-- The event that reports a file. -/
def result (e : Entry) : Event := .result (reported e)

/-- The results and errors of a walk that goes down a number of levels. -/
def walk (into : Standing → Bool) : (levels : Nat) → Context → List Event
  | 0, _ => []
  | levels + 1, s =>
    match s.enter o d with
    | .error e => [o.failure e]
    | .ok (rules, children) =>
      (children.filter (s.reports o rules)).map result ++
        (children.filterMap (s.subcontext? o d into rules)).flatMap (walk into levels)

/-- The files that the walk of a directory reports. -/
def results (into : Standing → Bool) (levels : Nat) (s : Context) : List Result :=
  (s.walk o d into levels).filterMap Event.result?

/-- The paths of the directories with reported files in or below them, each before those below
it. -/
def live (into : Standing → Bool) : (levels : Nat) → Context → List Text
  | 0, _ => []
  | levels + 1, s =>
    match s.enter o d with
    | .error _ => []
    | .ok (rules, children) =>
      let below := (children.filterMap (s.subcontext? o d into rules)).reverse.flatMap
        (live into levels)
      if children.any (s.reports o rules) || !below.isEmpty then s.place.path :: below else []

/-- All that the walk of the directory at a path shows. -/
def tree (into : Standing → Bool) (levels : Nat) (path : Text) : List Event :=
  o.listing ((root o d path).walk o d into levels) ((root o d path).live o d into levels)

variable {o d} {into : Standing → Bool} {s : Context} {rules : List Rule} {children : List Entry}

@[simp] theorem results_zero : s.results o d into 0 = [] := rfl

theorem results_of_error (levels : Nat) {e : WalkError} (henter : s.enter o d = .error e) :
    s.results o d into (levels + 1) = [] := by
  rw [results, walk, henter]
  simp

theorem results_of_ok (levels : Nat) (henter : s.enter o d = .ok (rules, children)) :
    s.results o d into (levels + 1) = (children.filter (s.reports o rules)).map reported ++
      (children.filterMap (s.subcontext? o d into rules)).flatMap (results o d into levels) := by
  have hown : ∀ es : List Entry, (es.map result).filterMap Event.result? = es.map reported := by
    intro es
    have hcomp : Event.result? ∘ result = some ∘ reported := rfl
    rw [List.filterMap_map, hcomp, List.filterMap_eq_map]
  rw [results, walk, henter]
  simp only [List.filterMap_append, List.filterMap_flatMap, hown]
  rfl

theorem live_of_error (levels : Nat) {e : WalkError} (henter : s.enter o d = .error e) :
    s.live o d into (levels + 1) = [] := by
  rw [live, henter]

theorem live_of_ok (levels : Nat) (henter : s.enter o d = .ok (rules, children)) :
    s.live o d into (levels + 1) =
      if children.any (s.reports o rules) ||
          !((children.filterMap (s.subcontext? o d into rules)).reverse.flatMap
            (live o d into levels)).isEmpty then
        s.place.path :: (children.filterMap (s.subcontext? o d into rules)).reverse.flatMap
          (live o d into levels)
      else [] := by
  rw [live, henter]

/-! ## The same walk in other circumstances -/

section Congruence

variable {o' : Options} {d' : Disk} {into' : Standing → Bool}

section Along

/-! The circumstances need to agree only on the way, at the contexts that a walk comes to. -/

variable {P : Context → Prop} (henter : ∀ c, P c → c.enter o' d' = c.enter o d)
  (hreports : ∀ c : Context, c.reports o' = c.reports o)
  (hsub : ∀ c, P c → c.subcontext? o' d' into' = c.subcontext? o d into)
  (hbelow : ∀ c rules children, P c → c.enter o d = .ok (rules, children) →
    ∀ c' ∈ children.filterMap (c.subcontext? o d into rules), P c')

include henter hreports hsub hbelow

theorem walk_congr_along (hfailure : o'.failure = o.failure) (levels : Nat) {c : Context}
    (hc : P c) : c.walk o' d' into' levels = c.walk o d into levels := by
  induction levels generalizing c with
  | zero => rfl
  | succ levels ih =>
    rw [walk, walk, henter c hc]
    cases hscope : c.enter o d with
    | error e => simp only [hfailure]
    | ok scope =>
      obtain ⟨rules, children⟩ := scope
      have hsame : ∀ c' ∈ children.filterMap (c.subcontext? o d into rules),
          c'.walk o' d' into' levels = c'.walk o d into levels :=
        fun c' hc' => ih (hbelow c rules children hc hscope c' hc')
      simp only [hreports, hsub c hc, List.flatMap_congr hsame]

theorem live_congr_along (levels : Nat) {c : Context} (hc : P c) :
    c.live o' d' into' levels = c.live o d into levels := by
  induction levels generalizing c with
  | zero => rfl
  | succ levels ih =>
    rw [live, live, henter c hc]
    cases hscope : c.enter o d with
    | error e => rfl
    | ok scope =>
      obtain ⟨rules, children⟩ := scope
      have hsame : ∀ c' ∈ (children.filterMap (c.subcontext? o d into rules)).reverse,
          c'.live o' d' into' levels = c'.live o d into levels :=
        fun c' hc' => ih (hbelow c rules children hc hscope c' (List.mem_reverse.1 hc'))
      simp only [hreports, hsub c hc, List.flatMap_congr hsame]

end Along

variable (henter : ∀ c : Context, c.enter o' d' = c.enter o d)
  (hreports : ∀ c : Context, c.reports o' = c.reports o)
  (hsub : ∀ c : Context, c.subcontext? o' d' into' = c.subcontext? o d into)

include henter hreports hsub

theorem walk_congr (hfailure : o'.failure = o.failure) (levels : Nat) (c : Context) :
    c.walk o' d' into' levels = c.walk o d into levels :=
  walk_congr_along (P := fun _ => True) (fun c _ => henter c) hreports (fun c _ => hsub c)
    (fun _ _ _ _ _ _ _ => trivial) hfailure levels trivial

theorem live_congr (levels : Nat) (c : Context) :
    c.live o' d' into' levels = c.live o d into levels :=
  live_congr_along (P := fun _ => True) (fun c _ => henter c) hreports (fun c _ => hsub c)
    (fun _ _ _ _ _ _ _ => trivial) levels trivial

end Congruence

/-! ## Enough levels -/

section Shallow

theorem mem_subcontexts {s s' : Context} {rules : List Rule} {children : List Entry}
    (h : s' ∈ children.filterMap (s.subcontext? o d into rules)) :
    ∃ e ∈ children, s.place.subdirectory? o d e = some s'.place := by
  obtain ⟨e, he, hsub⟩ := List.mem_filterMap.1 h
  unfold subcontext? at hsub
  split at hsub
  · obtain ⟨q, hq, rfl⟩ := Option.map_eq_some_iff.1 hsub
    exact ⟨e, he, hq⟩
  · cases hsub

theorem enter_eq_ok {s : Context} {rules : List Rule} {children : List Entry}
    (h : s.enter o d = .ok (rules, children)) :
    ∃ own, s.ownRules o d = .ok own ∧ rules = own ++ s.rules ∧
      s.place.scan o d = .ok children := by
  unfold enter at h
  cases hown : s.ownRules o d with
  | error e => rw [hown] at h; cases h
  | ok own =>
    rw [hown] at h
    cases hscan : s.place.scan o d with
    | error e => rw [hscan] at h; cases h
    | ok found =>
      rw [hscan] at h
      cases h
      exact ⟨own, rfl, rfl, rfl⟩

theorem shallow_of_mem_subcontexts {n : Nat} {s s' : Context} {rules : List Rule}
    {children : List Entry} (h : Place.Shallow o d (n + 1) s.place)
    (henter : s.enter o d = .ok (rules, children))
    (hs : s' ∈ children.filterMap (s.subcontext? o d into rules)) :
    Place.Shallow o d n s'.place := by
  obtain ⟨own, -, -, hscan⟩ := enter_eq_ok henter
  obtain ⟨e, he, hq⟩ := mem_subcontexts hs
  exact h children hscan e he _ hq

/-- Levels beyond those that a walk can reach change nothing. -/
theorem walk_of_shallow {n m : Nat} (hnm : n ≤ m) {s : Context}
    (h : Place.Shallow o d n s.place) : s.walk o d into m = s.walk o d into n := by
  induction n generalizing m s with
  | zero => exact h.elim
  | succ n ih =>
    obtain ⟨m, rfl⟩ : ∃ k, m = k + 1 := ⟨m - 1, by omega⟩
    rw [walk, walk]
    cases henter : s.enter o d with
    | error e => rfl
    | ok scope =>
      obtain ⟨rules, children⟩ := scope
      have hbelow : ∀ s' ∈ children.filterMap (s.subcontext? o d into rules),
          s'.walk o d into m = s'.walk o d into n := by
        intro s' hs'
        exact ih (by omega) (shallow_of_mem_subcontexts h henter hs')
      simp only [List.flatMap_congr hbelow]

theorem live_of_shallow {n m : Nat} (hnm : n ≤ m) {s : Context}
    (h : Place.Shallow o d n s.place) : s.live o d into m = s.live o d into n := by
  induction n generalizing m s with
  | zero => exact h.elim
  | succ n ih =>
    obtain ⟨m, rfl⟩ : ∃ k, m = k + 1 := ⟨m - 1, by omega⟩
    rw [live, live]
    cases henter : s.enter o d with
    | error e => rfl
    | ok scope =>
      obtain ⟨rules, children⟩ := scope
      have hbelow : ∀ s' ∈ (children.filterMap (s.subcontext? o d into rules)).reverse,
          s'.live o d into m = s'.live o d into n := by
        intro s' hs'
        exact ih (by omega) (shallow_of_mem_subcontexts h henter (List.mem_reverse.1 hs'))
      simp only [List.flatMap_congr hbelow]

end Shallow

end Context

end TreeSieve
