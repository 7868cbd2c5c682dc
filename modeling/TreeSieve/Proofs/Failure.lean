import TreeSieve.Proofs.LoopInvariant
import TreeSieve.Proofs.Complement

/-!
# Failures stay inside

A directory fails when its rule file cannot be read, or when it cannot be listed itself
(`Context.failure?`). `Disk.readable` is a file system in which nothing is unreadable. A walk that
reports errors finds there what it finds in the original one, and in addition only what lies below
directories that fail (`Context.results_eq_filter`). It reports one error for each of these, in the
order in which it comes to them (`Context.errors_walk`).

On the side of the traversal, a directory that fails is left with the very next step. Then the rules
that it has pushed are gone, and everything is as before it was entered
(`Traversal.step_of_failure`).
-/

namespace TreeSieve

instance (p q : Text) : Decidable (Path.IsAbove p q) :=
  inferInstanceAs (Decidable (_ ∧ _))

/-! ## A file system in which everything is readable -/

namespace Disk

/-- The file system with nothing unreadable. -/
def readable (d : Disk) : Disk := { d with unreadable := [] }

variable (d : Disk)

@[simp] theorem root_readable : d.readable.root = d.root := rfl

theorem WellFormed.readable {d : Disk} (hd : d.WellFormed) : d.readable.WellFormed := hd

theorem follow_readable (sought : Sought) (links : Nat) (l : Location) (steps : List Text) :
    d.readable.follow sought links l steps = d.follow sought links l steps := by
  fun_induction d.follow sought links l steps <;> rw [Disk.follow]
  case case10 hl hhere habove hlook hlong hend => simp [hl, hhere, habove, hlook, hlong, hend]
  all_goals simp_all [-List.lookup_eq_none_iff]

theorem locate_readable (p : Text) : d.readable.locate p = d.locate p := by
  rw [locate, locate, find, find, follow_readable]
  rfl

theorem node?_readable (p : Text) : d.readable.node? p = d.node? p := by
  rw [node?, node?, locate_readable]
  rfl

theorem isFile_readable (p : Text) : d.readable.isFile p = d.isFile p := by
  rw [isFile, isFile, node?_readable]

theorem isDirectory_readable (p : Text) : d.readable.isDirectory p = d.isDirectory p := by
  rw [isDirectory, isDirectory, node?_readable]

theorem has_readable (p : Text) : d.readable.has p = d.has p := by
  rw [has, has, node?_readable]

theorem identity?_readable (p : Text) : d.readable.identity? p = d.identity? p := by
  rw [identity?, identity?, locate_readable]

variable {d}

theorem read_readable {p : Text} {content : List UInt8} (h : d.read p = .ok content) :
    d.readable.read p = .ok content := by
  rw [read_eq] at h ⊢
  rw [locate_readable]
  cases hl : d.locate p with
  | error fault => rw [hl] at h; cases h
  | ok l =>
    rw [hl] at h
    simp only [root_readable] at h ⊢
    split at h
    · split at h
      · cases h
      · exact (if_neg List.not_mem_nil).trans h
    · cases h
    · exact h

theorem entries_readable {p : Text} {entries : List (Text × Node)} (h : d.entries p = .ok entries) :
    d.readable.entries p = .ok entries := by
  obtain ⟨l, hl, hget⟩ := entries_eq_ok h
  rw [entries_of_get? ((locate_readable d p).trans hl) hget]
  exact if_neg List.not_mem_nil

theorem scan_readable {p shown : Text} {follow : Bool} {children : List Entry}
    (h : d.scan p shown follow = .ok children) : d.readable.scan p shown follow = .ok children := by
  have hentry : d.readable.entryOf p shown follow = d.entryOf p shown follow := by
    funext ⟨name, node⟩
    cases node <;> simp [entryOf, entryIsDirectory, isDirectory_readable]
  rw [scan_eq] at h ⊢
  cases hentries : d.entries p with
  | error fault => rw [hentries] at h; cases h
  | ok entries =>
    rw [entries_readable hentries, hentry]
    rwa [hentries] at h

end Disk

namespace Context

variable (o : Options) (d : Disk)

/-! ## Directories that fail -/

/-- The rule file that should be read and cannot be. An excluded directory's file is not read. -/
def unreadRuleFile? (s : Context) : Option (Text × Fault) :=
  o.ruleFileName.bind fun name =>
    if s.standing.isExcluded = false ∧ d.isFile (Path.join s.place.absolute name) = true then
      match d.read (Path.join s.place.absolute name) with
      | .ok _ => none
      | .error fault => some (name, fault)
    else none

/-- The error of a directory that fails. It names the rule file if that cannot be read, and
otherwise the directory if that cannot be listed. -/
def failure? (s : Context) : Option WalkError :=
  match s.unreadRuleFile? o d with
  | some (name, fault) => some (.unreadable (Path.join s.place.path name) (.ofFault fault))
  | none =>
    match d.entries s.place.absolute with
    | .ok _ => none
    | .error fault => some (.unreadable s.place.path (.ofFault fault))

/-- The directories that a walk enters, in order. -/
def entered (into : Standing → Bool) : (levels : Nat) → Context → List Context
  | 0, _ => []
  | levels + 1, s =>
    s :: match s.enter o d with
      | .error _ => []
      | .ok (rules, children) =>
        (children.filterMap (s.subcontext? o d into rules)).flatMap (entered into levels)

/-- The directories that the walk of a root enters, which are none if the root is no directory. -/
def enteredFrom (root : Text) : List Context :=
  if d.isDirectory root then
    (Context.root o d root).entered o d o.descends (d.root.size + 1)
  else []

variable {o d} {into : Standing → Bool}

theorem scan_eq_error_iff {p : Place} {fault : Fault} :
    p.scan o d = .error fault ↔ d.entries p.absolute = .error fault := by
  rw [Place.scan, Disk.scan_eq]
  cases d.entries p.absolute with
  | error fault' =>
    constructor
    · rintro ⟨⟩
      rfl
    · rintro ⟨⟩
      rfl
  | ok entries => constructor <;> rintro ⟨⟩

theorem ownRules_eq_error_iff {s : Context} {e : WalkError} : s.ownRules o d = .error e ↔
    ∃ name fault, s.unreadRuleFile? o d = some (name, fault) ∧
      e = .unreadable (Path.join s.place.path name) (.ofFault fault) := by
  rw [ownRules, Place.ownRules, unreadRuleFile?]
  cases o.ruleFileName with
  | none => simp
  | some name =>
    cases hexcl : s.standing.isExcluded with
    | true => simp
    | false =>
      cases hfile : d.isFile (Path.join s.place.absolute name) with
      | false => simp [hfile]
      | true =>
        cases hread : d.read (Path.join s.place.absolute name) with
        | ok content => simp [hfile, hread]
        | error fault =>
          simp only [hfile, hread, Option.bind_some, Bool.false_eq_true, ↓reduceIte, and_self]
          constructor
          · intro h
            exact ⟨name, fault, rfl, (Except.error.inj h).symm⟩
          · rintro ⟨_, _, h, rfl⟩
            cases h
            rfl

/-- A directory fails if it cannot be entered. -/
theorem enter_eq_error_iff {s : Context} {e : WalkError} :
    s.enter o d = .error e ↔ s.failure? o d = some e := by
  rw [enter, failure?]
  cases hown : s.ownRules o d with
  | error e' =>
    obtain ⟨name, fault, hfile, rfl⟩ := ownRules_eq_error_iff.1 hown
    simp [hfile]
  | ok own =>
    have hnone : s.unreadRuleFile? o d = none := by
      rw [Option.eq_none_iff_forall_ne_some]
      rintro ⟨name, fault⟩ hfile
      have := ownRules_eq_error_iff.2 ⟨name, fault, hfile, rfl⟩
      rw [hown] at this
      cases this
    rw [hnone]
    cases hscan : s.place.scan o d with
    | error fault => simp [scan_eq_error_iff.1 hscan]
    | ok children =>
      cases hentries : d.entries s.place.absolute with
      | error fault =>
        rw [scan_eq_error_iff.2 hentries] at hscan
        cases hscan
      | ok entries => simp

theorem failure?_of_ok {s : Context} {scope : List Rule × List Entry}
    (henter : s.enter o d = .ok scope) : s.failure? o d = none := by
  rw [Option.eq_none_iff_forall_ne_some]
  intro e he
  rw [enter_eq_error_iff.2 he] at henter
  cases henter

theorem entered_of_error (levels : Nat) {s : Context} {e : WalkError}
    (henter : s.enter o d = .error e) : s.entered o d into (levels + 1) = [s] := by
  rw [entered, henter]

theorem entered_of_ok (levels : Nat) {s : Context} {rules : List Rule} {children : List Entry}
    (henter : s.enter o d = .ok (rules, children)) : s.entered o d into (levels + 1) =
      s :: (children.filterMap (s.subcontext? o d into rules)).flatMap
        (entered o d into levels) := by
  rw [entered, henter]

/-- What goes on from a directory to its subdirectories holds for all directories that are
entered. -/
theorem of_mem_entered {P : Context → Prop}
    (hbelow : ∀ c rules children, P c → c.enter o d = .ok (rules, children) →
      ∀ c' ∈ children.filterMap (c.subcontext? o d into rules), P c')
    (levels : Nat) {c : Context} (hc : P c) : ∀ s ∈ c.entered o d into levels, P s := by
  induction levels generalizing c with
  | zero => simp [entered]
  | succ levels ih =>
    intro s hs
    cases henter : c.enter o d with
    | error e =>
      rw [entered_of_error levels henter] at hs
      rwa [List.mem_singleton.1 hs]
    | ok scope =>
      obtain ⟨rules, children⟩ := scope
      rw [entered_of_ok levels henter] at hs
      rcases List.mem_cons.1 hs with rfl | hs
      · exact hc
      · obtain ⟨c', hc', hs⟩ := List.mem_flatMap.1 hs
        exact ih (hbelow c rules children hc henter c' hc') s hs

/-! ## One error for each -/

theorem errors_walk (hreport : o.onError = .report) (levels : Nat) (s : Context) :
    (s.walk o d into levels).filterMap Event.error? =
      (s.entered o d into levels).filterMap (failure? o d) := by
  induction levels generalizing s with
  | zero => rfl
  | succ levels ih =>
    cases henter : s.enter o d with
    | error e =>
      have hfailure : (o.failure e).error? = some e := by
        rw [Options.failure, hreport]
        rfl
      rw [walk, henter, entered_of_error levels henter]
      simp [enter_eq_error_iff.1 henter, hfailure]
    | ok scope =>
      obtain ⟨rules, children⟩ := scope
      have hown : ∀ es : List Entry, (es.map result).filterMap Event.error? = [] := by
        intro es
        rw [List.filterMap_map]
        exact List.filterMap_eq_nil_iff.2 fun _ _ => rfl
      rw [walk, henter, entered_of_ok levels henter, List.filterMap_cons, failure?_of_ok henter]
      simp only [List.filterMap_append, List.filterMap_flatMap, hown, List.nil_append]
      exact List.flatMap_congr fun s' _ => ih s'

/-! ## What is found where everything is readable -/

theorem enter_readable {s : Context} {scope : List Rule × List Entry}
    (henter : s.enter o d = .ok scope) : s.enter o d.readable = .ok scope := by
  obtain ⟨rules, children⟩ := scope
  obtain ⟨own, hown, rfl, hscan⟩ := enter_eq_ok henter
  have hown' : s.ownRules o d.readable = .ok own := by
    rw [ownRules, Place.ownRules] at hown ⊢
    simp only [Disk.isFile_readable]
    cases hname : o.ruleFileName with
    | none => simpa [hname] using hown
    | some name =>
      simp only [hname] at hown ⊢
      split
      · next hexcl => rwa [if_pos hexcl] at hown
      · next hexcl =>
        rw [if_neg hexcl] at hown
        split
        · next hfile =>
          rw [if_pos hfile] at hown
          cases hread : d.read (Path.join s.place.absolute name) with
          | error fault => rw [hread] at hown; cases hown
          | ok content =>
            rw [Disk.read_readable hread]
            rwa [hread] at hown
        · next hfile => rwa [if_neg hfile] at hown
  have hscan' : s.place.scan o d.readable = .ok children := Disk.scan_readable hscan
  rw [enter, hown', hscan']

theorem identity?_readable (absolute : Text) :
    Place.identity? o d.readable absolute = Place.identity? o d absolute := by
  rw [Place.identity?, Place.identity?, Disk.identity?_readable]

theorem subcontext?_readable (s : Context) (rules : List Rule) :
    s.subcontext? o d.readable into rules = s.subcontext? o d into rules := by
  funext e
  have hplace : s.place.subdirectory? o d.readable e = s.place.subdirectory? o d e := by
    simp only [Place.subdirectory?, Place.below?, identity?_readable]
  rw [subcontext?, subcontext?, hplace]

theorem root_readable (path : Text) : Context.root o d.readable path = Context.root o d path := by
  rw [Context.root, Context.root, Place.root, Place.root, identity?_readable]
  rfl

section WellFormed

variable (hd : d.WellFormed)

include hd

/-- The path of a directory that is entered goes on from the path of the first one. -/
theorem names_of_mem_entered (levels : Nat) {c : Context} : ∀ s ∈ c.entered o d into levels,
    ∃ rest, Path.names s.place.path = Path.names c.place.path ++ rest := by
  apply of_mem_entered
  case hc => exact ⟨[], (List.append_nil _).symm⟩
  case hbelow =>
    rintro c₁ rules children ⟨rest, hrest⟩ henter c' hc'
    obtain ⟨own, -, -, hscan⟩ := enter_eq_ok henter
    obtain ⟨name, hname, hpath⟩ := path_of_mem_subcontexts hd hscan hc'
    exact ⟨rest ++ [name], by rw [hpath, Path.names_join hname, hrest, List.append_assoc]⟩

/-- No directory is entered twice. -/
theorem nodup_entered (levels : Nat) (c : Context) :
    ((c.entered o d into levels).map fun s => Path.names s.place.path).Nodup := by
  induction levels generalizing c with
  | zero => exact List.nodup_nil
  | succ levels ih =>
    cases henter : c.enter o d with
    | error e =>
      rw [entered_of_error levels henter]
      exact List.nodup_singleton _
    | ok scope =>
      obtain ⟨rules, children⟩ := scope
      obtain ⟨own, -, -, hscan⟩ := enter_eq_ok henter
      rw [entered_of_ok levels henter, List.map_cons, List.map_flatMap]
      refine List.nodup_cons.2 ⟨?_, List.nodup_flatMap.2 ⟨fun c' _ => ih c', ?_⟩⟩
      · intro hmem
        obtain ⟨c', hc', hmem⟩ := List.mem_flatMap.1 hmem
        obtain ⟨s, hs, heq⟩ := List.mem_map.1 hmem
        obtain ⟨name, hname, hpath⟩ := path_of_mem_subcontexts hd hscan hc'
        obtain ⟨rest, hrest⟩ := names_of_mem_entered hd levels s hs
        rw [hrest, hpath, Path.names_join hname] at heq
        simpa using congrArg List.length heq
      · apply (pairwise_subcontexts hd hscan).imp
        rintro a b ⟨n, m, hnm, ha, hb⟩
        apply List.disjoint_left.2
        intro x hxa hxb
        obtain ⟨s, hs, rfl⟩ := List.mem_map.1 hxa
        obtain ⟨s', hs', heq⟩ := List.mem_map.1 hxb
        obtain ⟨rest, hrest⟩ := names_of_mem_entered hd levels s hs
        obtain ⟨rest', hrest'⟩ := names_of_mem_entered hd levels s' hs'
        rw [hrest, hrest', ha, hb] at heq
        exact Path.not_prefix_of_ne hnm.symm ⟨[], by rw [List.append_nil, heq]⟩

/-- What lies in a directory of its own does not lie below a subdirectory. -/
theorem not_isAbove_own (levels : Nat) {c : Context} {rules : List Rule} {children : List Entry}
    (hscan : c.place.scan o d = .ok children) {e : Entry} (he : e ∈ children) {s : Context}
    (hs : s ∈ (children.filterMap (c.subcontext? o d into rules)).flatMap
      (entered o d into levels)) : ¬Path.IsAbove s.place.path (reported e).path := by
  rintro ⟨hpre, hne⟩
  obtain ⟨c', hc', hs⟩ := List.mem_flatMap.1 hs
  obtain ⟨name, hname, hpath⟩ := path_of_mem_subcontexts hd hscan hc'
  obtain ⟨rest, hrest⟩ := names_of_mem_entered hd levels s hs
  apply hne
  apply hpre.eq_of_length_le
  rw [names_reported hd hscan he, hrest, hpath, Path.names_join hname]
  simp

/-- What lies below one subdirectory does not lie below another. -/
theorem not_isAbove_below (levels : Nat) {c : Context} {rules : List Rule} {children : List Entry}
    (hscan : c.place.scan o d = .ok children) {a b : Context}
    (ha : a ∈ children.filterMap (c.subcontext? o d into rules))
    (hb : b ∈ children.filterMap (c.subcontext? o d into rules)) (hne : a ≠ b) {s : Context}
    (hs : s ∈ a.entered o d into levels) {r : Result}
    (hr : ∃ rest, Path.names r.path = Path.names b.place.path ++ rest ∧ rest ≠ []) :
    ¬Path.IsAbove s.place.path r.path := by
  rintro ⟨hpre, -⟩
  obtain ⟨n, hn, hpath⟩ := path_of_mem_subcontexts hd hscan ha
  obtain ⟨m, hm, hpath'⟩ := path_of_mem_subcontexts hd hscan hb
  have hnm : n ≠ m := by
    rintro rfl
    exact hne (List.inj_on_of_nodup_map (nodup_names_subcontexts hd hscan) ha hb
      (by simp only [hpath, hpath']))
  obtain ⟨rest, hrest⟩ := names_of_mem_entered hd levels s hs
  obtain ⟨rest', hrest', -⟩ := hr
  rw [hrest, hrest', hpath, hpath', Path.names_join hn, Path.names_join hm] at hpre
  exact Path.not_prefix_of_ne hnm hpre

/-- **Failures stay inside**: what a walk reports is what it would report if everything were
readable, without what lies below directories that fail. -/
theorem results_eq_filter (levels : Nat) (c : Context) : c.results o d into levels =
    (c.results o d.readable into levels).filter fun r =>
      !(c.entered o d into levels).any fun s =>
        (s.failure? o d).isSome && decide (Path.IsAbove s.place.path r.path) := by
  induction levels generalizing c with
  | zero => rfl
  | succ levels ih =>
    cases henter : c.enter o d with
    | error e =>
      rw [results_of_error levels henter, entered_of_error levels henter]
      symm
      apply List.filter_eq_nil_iff.2
      intro r hr
      obtain ⟨rest, hrest, hne⟩ := names_of_mem_results hd.readable (levels + 1) r hr
      have habove : Path.IsAbove c.place.path r.path :=
        ⟨⟨rest, hrest.symm⟩, by rw [hrest]; simpa using hne⟩
      simp [enter_eq_error_iff.1 henter, habove]
    | ok scope =>
      obtain ⟨rules, children⟩ := scope
      obtain ⟨own, -, -, hscan⟩ := enter_eq_ok henter
      have hself := failure?_of_ok henter
      rw [results_of_ok levels henter, results_of_ok levels (enter_readable henter),
        entered_of_ok levels henter, subcontext?_readable, List.filter_append, List.filter_flatMap]
      congr 1
      · symm
        apply List.filter_eq_self.2
        intro r hr
        obtain ⟨e, he, rfl⟩ := List.mem_map.1 hr
        rw [Bool.not_eq_true', List.any_eq_false]
        intro s hs hfails
        rw [Bool.and_eq_true, decide_eq_true_iff] at hfails
        rcases List.mem_cons.1 hs with rfl | hs
        · rw [hself] at hfails
          cases hfails.1
        · exact not_isAbove_own hd levels hscan (List.mem_of_mem_filter he) hs hfails.2
      · apply List.flatMap_congr
        intro c' hc'
        rw [ih]
        apply List.filter_congr
        intro r hr
        have hnames := names_of_mem_results hd.readable levels r hr
        rw [List.any_cons, hself, List.any_flatMap]
        congr 1
        rw [Bool.eq_iff_iff]
        constructor
        · intro hbelow
          exact List.any_eq_true.2 ⟨c', hc', hbelow⟩
        -- What another subdirectory hides does not lie below this one.
        · intro hany
          obtain ⟨a, ha, hbelow⟩ := List.any_eq_true.1 hany
          by_cases heq : a = c'
          · rwa [← heq]
          · obtain ⟨s, hs, hfails⟩ := List.any_eq_true.1 hbelow
            rw [Bool.and_eq_true, decide_eq_true_iff] at hfails
            exact absurd hfails.2 (not_isAbove_below hd levels hscan ha hc' heq hs hnames)

end WellFormed

end Context

namespace Traversal

/-! ## What is left of a directory that fails -/

variable {o : Options} {d : Disk}

/-- A directory that cannot be read is entered with one error and then left. -/
theorem enter_of_error {t : Traversal} {f : Frame} {e : WalkError}
    (h : (openScope o d t.rules f).children = .error e) (rest : List Frame) :
    shown (enter o d t f rest).1 = [o.failure e] ∧
      (enter o d t f rest).2 =
        { t with
          queue := f.opened :: rest
          rules := (openScope o d t.rules f).rules
          active := f.identity.toList ++ t.active
          depth := t.depth + 1 } := by
  have hnotes : shown (openScope o d t.rules f).notes = [] := by
    unfold openScope
    split
    · rfl
    · apply shown_notes
      intro e he
      obtain ⟨_, -, rfl⟩ := List.mem_map.1 he
      rfl
  rw [enter, h, shown_append, hnotes, shown_onFailure]
  exact ⟨rfl, rfl⟩

/-- **A failing directory leaves nothing behind.** With the next step the rules that it has pushed
are gone, and of the others only those of the patterns if it was the root. -/
theorem step_of_failure (hfiles : o.output = .files) (hd : d.WellFormed) {root : Text} {n : Nat}
    {f : Frame} {rest : List Frame} {e : WalkError} (hq : (loopHead o d root n).queue = f :: rest)
    (hf : f.entered = false)
    (h : (openScope o d (loopHead o d root n).rules f).children = .error e) :
    shown ((loopHead o d root n).step o d).1 = [o.failure e] ∧ (rest ≠ [] → f.seeded = 0) ∧
      ∃ last, loopHead o d root (n + 2) = after o (loopHead o d root n) f rest last [] := by
  obtain ⟨ls, harr, hfresh, hseeded⟩ := exists_arrives hd root hq hf
  have htwo : loopHead o d root (n + 2) = (((loopHead o d root n).step o d).2.step o d).2 := by
    rw [loopHead_succ o d root (n + 1), loopHead_succ]
  rw [htwo]
  generalize loopHead o d root n = t at hq h harr
  obtain ⟨own, last, -, hopen⟩ := openScope_rules (o := o) (d := d) t.rules f
  obtain ⟨hshown, henter⟩ := enter_of_error h rest
  rw [step_of_waiting hq hf, henter]
  refine ⟨hshown, hseeded, last, ?_⟩
  have hactive : (f.identity.toList ++ t.active).filter (f.identity ≠ some ·) = t.active := by
    have hothers : t.active.filter (f.identity ≠ some ·) = t.active := by
      apply List.filter_eq_self.2
      intro l hl
      rw [harr.active] at hl
      simpa using fun heq => hfresh l heq hl
    rw [List.filter_append, hothers]
    cases f.identity <;> simp
  have hcounts : t.rules.counts.filter (·.1 ≠ f.key) = t.rules.counts := by
    apply List.filter_eq_self.2
    intro c hc
    rw [harr.counts] at hc
    obtain ⟨l, hl, rfl⟩ := List.mem_map.1 hc
    simpa using harr.new l hl
  have hrules : (openScope o d t.rules f).rules.leave f.key =
      { t.rules with rules := t.rules.rules.drop f.seeded, lastPriority := last } := by
    rw [hopen, hcounts, RuleStack.leave, RuleStack.recorded, List.lookup_cons_self,
      Option.getD_some, Int.toNat_natCast, List.filter_cons_of_neg (by simp), hcounts,
      Nat.add_comm f.seeded, ← List.drop_drop, List.drop_left]
  rw [step_of_entered (f := f.opened) rfl rfl, leave, hfiles, f.opened_key, hrules]
  have hidentity : f.opened.identity = f.identity := rfl
  simp only [hidentity, hactive, Nat.add_sub_cancel, after, gained_nil]

end Traversal

namespace Walker

/-- **Failures stay inside their subtree.** A walk that reports errors yields what it would yield if
everything were readable, except what lies below directories that fail. It enters no directory
twice and reports one error for each that fails, in order. A failing directory is entered with one
error and left with the next step, and then only its place in the queue is gone. -/
theorem failures_stay_inside {w : Walker} (hfiles : w.options.output = .files)
    (hreport : w.options.onError = .report) {d : Disk} (hd : d.WellFormed) (root : Text) :
    (w.results d root = (w.results d.readable root).filter fun r =>
      !(Context.enteredFrom w.options d root).any fun s =>
        (s.failure? w.options d).isSome && decide (Path.IsAbove s.place.path r.path)) ∧
    (w.walk d root none).1.filterMap Event.error? =
      (if d.has root then
        (Context.enteredFrom w.options d root).filterMap (Context.failure? w.options d)
      else [.rootMissing root]) ∧
    ((Context.enteredFrom w.options d root).map fun s => Path.names s.place.path).Nodup ∧
    ∀ n f rest e, (Traversal.loopHead w.options d root n).queue = f :: rest → f.entered = false →
      (Traversal.openScope w.options d (Traversal.loopHead w.options d root n).rules f).children =
        .error e →
      shown ((Traversal.loopHead w.options d root n).step w.options d).1 =
          [w.options.failure e] ∧
        (rest ≠ [] → f.seeded = 0) ∧
        ∃ last, Traversal.loopHead w.options d root (n + 2) =
          Traversal.after w.options (Traversal.loopHead w.options d root n) f rest last [] := by
  have hlevels : d.root.size < d.root.size + 1 := Nat.lt_succ_self _
  refine ⟨?_, ?_, ?_, fun n f rest e => Traversal.step_of_failure hfiles hd⟩
  · cases hroot : d.isDirectory root with
    | true =>
      have hroot' : d.readable.isDirectory root = true := by
        rw [Disk.isDirectory_readable, hroot]
      rw [results_of_isDirectory hreport hd hlevels hroot,
        results_of_isDirectory hreport hd.readable hlevels hroot', hfiles, Context.enteredFrom,
        if_pos hroot, Context.root_readable]
      exact Context.results_eq_filter hd _ _
    | false =>
      have hroot' : d.readable.isDirectory root = false := by
        rw [Disk.isDirectory_readable, hroot]
      rw [results_of_not_isDirectory hreport hd hroot,
        results_of_not_isDirectory hreport hd.readable hroot', Context.enteredFrom, hroot,
        Disk.has_readable]
      exact (List.filter_eq_self.2 fun _ _ => rfl).symm
  · rw [walk_eq hreport hd hlevels, Walk.listing]
    split
    · rw [Context.enteredFrom]
      split
      · rw [Context.tree, Options.listing, hfiles]
        exact Context.errors_walk hreport _ _
      · apply List.filterMap_eq_nil_iff.2
        intro e he
        obtain ⟨r, rfl⟩ := Walk.mem_singleFile he
        rfl
    · rw [Options.failure, hreport]
      rfl
  · rw [Context.enteredFrom]
    split
    · exact Context.nodup_entered hd _ _
    · exact List.nodup_nil

/-- A directory that cannot be listed after its rules have been read, and one whose rule file cannot
be read. -/
theorem failures_stay_inside_list_and_rule_file :
    let w : Walker := { options := { ruleFileName := some "r" } }
    let d : Disk := ⟨.directory [
      ("x", .directory [("a", .file []), ("r", .file (Utf8.encode "*"))]),
      ("y", .directory [("b", .file []), ("r", .file [])]), ("z", .file [])], [],
      [["x"], ["y", "r"]]⟩
    w.results d "/" = [⟨"/z", false⟩] ∧
      (w.walk d "/" none).1.filterMap Event.error? =
        [.unreadable "/x" (.ofFault .denied), .unreadable "/y/r" (.ofFault .denied)] := by
  intro w d
  obtain ⟨hresults, herrors, -⟩ :=
    failures_stay_inside (w := w) rfl rfl (d := d) (by decide) "/"
  exact ⟨hresults.trans (by cbv), herrors.trans (by cbv)⟩

end Walker

end TreeSieve
