import TreeSieve.Proofs.Harvest

/-!
# A traversal walks like the recursion

A traversal that has a directory at the front of its queue leaves it after a number of steps, and
then everything but the last priority and the live directories is as it was before
(`Traversal.leads_after`). The events on the way are those of the recursive walk of the directory
(`Context.walk`), and the directories put aside are those that the recursion finds (`Context.live`).

`Matches` relates a frame that is to be entered to a context of the recursion, and `Waits` does so
for the frame of a subdirectory. Nothing that happens until the frame comes up can break it, since
that is the entering and leaving of siblings (`Waits.past`).
-/

namespace TreeSieve

open TreeSieve.Sym

namespace Traversal

variable {o : Options} {d : Disk}

/-! ## Steps -/

/-- A number of steps leads from a traversal to another one. -/
inductive Leads (o : Options) (d : Disk) : Nat → Traversal → List Event → Traversal → Prop
  | refl (t : Traversal) : Leads o d 0 t [] t
  | step {n : Nat} {t u : Traversal} {events : List Event} (hq : t.queue ≠ [])
      (h : Leads o d n (t.step o d).2 events u) : Leads o d (n + 1) t ((t.step o d).1 ++ events) u

theorem Leads.trans {m n : Nat} {t u v : Traversal} {es fs : List Event}
    (h : Leads o d m t es u) (h' : Leads o d n u fs v) : Leads o d (m + n) t (es ++ fs) v := by
  induction h with
  | refl t => simpa using h'
  | step hq _ ih =>
    rw [List.append_assoc, Nat.add_right_comm]
    exact .step hq (ih h')

theorem Leads.one {t u : Traversal} {es : List Event} (hq : t.queue ≠ [])
    (h : t.step o d = (es, u)) : Leads o d 1 t es u := by
  have := Leads.step (o := o) (d := d) hq (.refl _)
  rwa [h, List.append_nil] at this

/-! ## What is shown on the way -/

/-- The events of the recursive walk that a traversal shows on its way. Results are shown at once
only if they are files. -/
def traced (o : Options) (events : List Event) : List Event :=
  match o.output with
  | .files => events
  | .directories => events.filter (·.result?.isNone)

@[simp] theorem traced_nil : traced o [] = [] := by
  unfold traced
  cases o.output <;> rfl

theorem traced_append (es fs : List Event) : traced o (es ++ fs) = traced o es ++ traced o fs := by
  unfold traced
  cases o.output
  · rfl
  · exact List.filter_append ..

/-- The events of a directory itself come before those of its subdirectories. -/
theorem traced_results (entries : List Entry) : traced o (entries.map Context.result) =
    match o.output with
    | .files => entries.map Context.result
    | .directories => [] := by
  unfold traced
  cases o.output with
  | files => rfl
  | directories => exact List.filter_eq_nil_iff.2 (by simp [Context.result, Event.result?])

theorem traced_failure (e : WalkError) : traced o [o.failure e] = [o.failure e] := by
  unfold Options.failure traced
  cases o.onError <;> cases o.output <;> rfl

/-! ## States between entering and leaving a directory -/

/-- What has changed for the directories above when the walk is done with some others. -/
def gained (o : Options) (a : Ancestors) (above : Option Text) (found : List Text) : Ancestors :=
  match o.output with
  | .files => a
  | .directories => a.gain above found

@[simp] theorem gained_nil (a : Ancestors) (above : Option Text) : gained o a above [] = a := by
  unfold gained
  cases o.output <;> rfl

theorem gained_gained (a : Ancestors) (key : Text) (found more : List Text) :
    gained o (gained o a (some key) found) (some key) more =
      gained o a (some key) (more ++ found) := by
  unfold gained
  cases o.output with
  | files => rfl
  | directories => exact Ancestors.gain_gain a key found more

theorem mem_live_gained {a : Ancestors} {key k : Text} {found : List Text}
    (h : k ∈ (gained o a (some key) found).live) : k = key ∨ k ∈ a.live := by
  unfold gained at h
  cases hout : o.output with
  | files => exact Or.inr (by simpa [hout] using h)
  | directories => exact Ancestors.mem_live_gain (by simpa [hout] using h)

/-- The ancestors in a directory of which a file is reported or not. -/
def marked (o : Options) (a : Ancestors) (key : Text) (own : Bool) : Ancestors :=
  match o.output with
  | .files => a
  | .directories => if own then a.markLive key else a

theorem mem_live_marked {a : Ancestors} {key k : Text} {own : Bool}
    (h : k ∈ (marked o a key own).live) : k = key ∨ k ∈ a.live := by
  unfold marked at h
  cases hout : o.output with
  | files => exact Or.inr (by simpa [hout] using h)
  | directories =>
    cases own with
    | false => exact Or.inr (by simpa [hout] using h)
    | true => exact Ancestors.mem_live_markLive (by simpa [hout] using h)

/-- The state in a directory: its rules lie on the stack, and its frame waits behind others. -/
def inside (t : Traversal) (f : Frame) (own : List RankedRule) (last : Nat)
    (frames rest : List Frame) (a : Ancestors) : Traversal :=
  { queue := frames ++ { f with entered := true } :: rest
    rules :=
      { rules := own ++ t.rules.rules
        counts := (f.key, (f.seeded + own.length : Nat)) :: t.rules.counts
        lastPriority := last }
    ancestors := a
    active := f.identity.toList ++ t.active
    depth := t.depth + 1 }

/-- The state after a directory is left. -/
def after (o : Options) (t : Traversal) (f : Frame) (rest : List Frame) (last : Nat)
    (found : List Text) : Traversal :=
  { queue := rest
    rules :=
      { rules := t.rules.rules.drop f.seeded, counts := t.rules.counts, lastPriority := last }
    ancestors := gained o t.ancestors f.above found
    active := t.active
    depth := t.depth }

/-- The state after some directories below another one are left. -/
def past (o : Options) (t : Traversal) (key : Text) (rest : List Frame) (last : Nat)
    (found : List Text) : Traversal :=
  { t with
    queue := rest
    rules := { t.rules with lastPriority := last }
    ancestors := gained o t.ancestors (some key) found }

theorem after_eq_past {t : Traversal} {f : Frame} {key : Text} (habove : f.above = some key)
    (hseeded : f.seeded = 0) (rest : List Frame) (last : Nat) (found : List Text) :
    after o t f rest last found = past o t key rest last found := by
  rw [after, hseeded, habove]
  rfl

/-- A frame about to be entered, and the context that it stands for. -/
structure Matches (t : Traversal) (f : Frame) (s : Context) : Prop where
  path : f.path = s.place.path
  absolute : f.absolute = s.place.absolute
  entered : f.entered = false
  rules : t.rules.rules.map (·.rule) = s.rules
  ordered : t.rules.Ordered
  standing : Agrees t.rules.rules f.excludedBy s.standing
  active : f.identity.toList ++ t.active = s.place.active
  fresh : ∀ l ∈ t.active, f.identity ≠ some l
  depth : t.depth + 1 = s.place.depth
  /-- The directories with records are above, so their keys are shorter. -/
  counts : ∀ c ∈ t.rules.counts, c.1.length < f.key.length
  live : ∀ k ∈ t.ancestors.live, k.length < f.key.length

/-- A frame still matches when siblings have been entered and left. -/
theorem Matches.transfer {t u : Traversal} {f : Frame} {s : Context} (h : Matches t f s)
    (hrules : u.rules.rules = t.rules.rules) (hcounts : u.rules.counts = t.rules.counts)
    (hlast : t.rules.lastPriority ≤ u.rules.lastPriority) (hactive : u.active = t.active)
    (hdepth : u.depth = t.depth) (hlive : ∀ k ∈ u.ancestors.live, k.length < f.key.length) :
    Matches u f s where
  path := h.path
  absolute := h.absolute
  entered := h.entered
  rules := by rw [hrules]; exact h.rules
  ordered := by
    refine ⟨?_, ?_, fun r hr => ?_⟩
    · rw [hrules]; exact h.ordered.sorted
    · rw [hrules]; exact h.ordered.pos
    · exact Nat.le_trans (h.ordered.le_last r (hrules ▸ hr)) hlast
  standing := by rw [hrules]; exact h.standing
  active := by rw [hactive]; exact h.active
  fresh := by rw [hactive]; exact h.fresh
  depth := by rw [hdepth]; exact h.depth
  counts := by rw [hcounts]; exact h.counts
  live := hlive

variable (o d) in
/-- A frame that waits below the directory with a key, and the context that it stands for, in which
there are at most `n` levels. -/
structure Waits (n : Nat) (key : Text) (t : Traversal) (f : Frame) (s : Context) : Prop extends
    Matches t f s where
  above : f.above = some key
  seeded : f.seeded = 0
  below : key.length < f.key.length
  shallow : Place.Shallow o d n s.place

/-- Nothing but the live directories has changed for a frame when a sibling is left. -/
theorem Waits.past {n : Nat} {key : Text} {t : Traversal} {f : Frame} {s : Context}
    (h : Waits o d n key t f s) {last : Nat} (hlast : t.rules.lastPriority ≤ last)
    (rest : List Frame) (found : List Text) :
    Waits o d n key (past o t key rest last found) f s where
  toMatches := by
    refine h.toMatches.transfer rfl rfl hlast rfl rfl ?_
    intro k hk
    rcases mem_live_gained hk with rfl | hk
    · exact h.below
    · exact h.live k hk
  above := h.above
  seeded := h.seeded
  below := h.below
  shallow := h.shallow

/-! ## Entering -/

section Enter

variable {t : Traversal} {f : Frame} {s : Context} (hm : Matches t f s)

include hm in
/-- The rule file of a directory holds the rules that the recursion finds in it. -/
theorem ownRules_eq : s.ownRules o d =
    (ruleFile o d f).map fun found => ((found.map (·.1)).getD []).reverse := by
  have hexcl := hm.standing.isExcluded
  unfold Context.ownRules Place.ownRules ruleFile
  rw [← hm.path, ← hm.absolute, hexcl]
  cases o.ruleFileName with
  | none => rfl
  | some name =>
    by_cases hp : f.excludedBy = 0
    · simp only [hp, bne_self_eq_false, Bool.false_eq_true, ↓reduceIte, ne_eq, not_true_eq_false]
      cases d.isFile (Path.join f.absolute name) with
      | false => rfl
      | true => cases d.read (Path.join f.absolute name) <;> rfl
    · simp [hp, Except.map]

include hm in
theorem counts_filter : t.rules.counts.filter (·.1 ≠ f.key) = t.rules.counts :=
  List.filter_eq_self.2 fun c hc => by
    have := hm.counts c hc
    simpa using fun h : c.1 = f.key => by rw [h] at this; omega

include hm in
theorem agrees_own {found : Option (List Rule × Text)} (hfound : ruleFile o d f = .ok found)
    {own : List RankedRule} (hown : own.map (·.rule) = ((found.map (·.1)).getD []).reverse) :
    Agrees (own ++ t.rules.rules) f.excludedBy s.standing := by
  apply hm.standing.append
  intro hp
  have hnone : found = none := by
    unfold ruleFile at hfound
    cases hname : o.ruleFileName with
    | none => simpa [hname] using hfound.symm
    | some name => simpa [hname, hp] using hfound.symm
  simpa [hnone] using hown

include hm in
/-- The scope of a directory has its own rules on top of those from above, and holds the entries
that the recursion finds. -/
theorem openScope_eq (rest : List Frame) : ∃ notes own last, shown notes = [] ∧
    t.rules.lastPriority ≤ last ∧
    (inside t f own last [] rest t.ancestors).rules.Ordered ∧
    Agrees (own ++ t.rules.rules) f.excludedBy s.standing ∧
    openScope o d t.rules f =
      ⟨(inside t f own last [] rest t.ancestors).rules, notes, (s.enter o d).map (·.2)⟩ ∧
    ∀ rules children, s.enter o d = .ok (rules, children) →
      (own ++ t.rules.rules).map (·.rule) = rules := by
  have hown := ownRules_eq hm (o := o) (d := d)
  have hcounts := counts_filter hm
  cases hfile : ruleFile o d f with
  | error e =>
    rw [hfile] at hown
    have henter : s.enter o d = .error e := by rw [Context.enter, hown]; rfl
    refine ⟨[], [], t.rules.lastPriority, rfl, Nat.le_refl _,
      ⟨hm.ordered.sorted, hm.ordered.pos, hm.ordered.le_last⟩, by simpa using hm.standing, ?_, ?_⟩
    · rw [openScope, hfile, henter]
      simp only [RuleStack.record, hcounts]
      rfl
    · rw [henter]
      rintro _ _ ⟨⟩
  | ok found =>
    rw [hfile] at hown
    replace hown : s.ownRules o d = .ok ((found.map (·.1)).getD []).reverse := hown
    generalize hdecl : (found.map (·.1)).getD [] = declared at hown
    obtain ⟨own, hrules, hmap, hlt, hle, hc⟩ := RuleStack.rules_pushAll t.rules declared
    have hlen : own.length = declared.length := by
      rw [← List.length_map (f := RankedRule.rule), hmap, List.length_reverse]
    have hrecord : (t.rules.pushAll declared).record f.key (f.seeded + declared.length : Nat) =
        { rules := own ++ t.rules.rules
          counts := (f.key, (f.seeded + own.length : Nat)) :: t.rules.counts
          lastPriority := (t.rules.pushAll declared).lastPriority } := by
      rw [RuleStack.record, hrules, hc, hcounts, hlen]
    have hscan : s.place.scan o d = d.scan f.absolute f.path o.followLinks := by
      rw [Place.scan, hm.path, hm.absolute]
    have hordered := (hm.ordered.pushAll declared).record f.key (f.seeded + declared.length : Nat)
    rw [hrecord] at hordered
    refine ⟨found.toList.map fun loaded => .note (.loaded loaded.1.length loaded.2), own,
      (t.rules.pushAll declared).lastPriority, shown_notes ?_, hle, hordered,
      agrees_own hm hfile (by rw [hdecl]; exact hmap), ?_, ?_⟩
    · intro e he
      obtain ⟨_, _, rfl⟩ := List.mem_map.1 he
      rfl
    · rw [openScope, hfile, Context.enter, hown, hscan, hm.path]
      simp only [hdecl, hrecord]
      cases d.scan f.absolute s.place.path o.followLinks <;> rfl
    · intro rules children henter
      obtain ⟨own', hown', rfl, -⟩ := Context.enter_eq_ok henter
      rw [hown] at hown'
      cases hown'
      rw [List.map_append, hmap, hm.rules]

include hm in
/-- **Entering a directory** puts its rules on the stack and records how many they are, whether or
not it can be read. -/
theorem enter_eq (rest : List Frame) : ∃ notes own last, shown notes = [] ∧
    t.rules.lastPriority ≤ last ∧
    (inside t f own last [] rest t.ancestors).rules.Ordered ∧
    Agrees (own ++ t.rules.rules) f.excludedBy s.standing ∧
    (∀ e, s.enter o d = .error e →
      enter o d t f rest = (notes ++ o.onFailure e, inside t f own last [] rest t.ancestors)) ∧
    (∀ rules children, s.enter o d = .ok (rules, children) →
      (own ++ t.rules.rules).map (·.rule) = rules ∧
      let h := children.foldl (visit o d (inside t f own last [] rest t.ancestors) f)
        { ancestors := t.ancestors }
      enter o d t f rest =
        (notes ++ h.events, inside t f own last h.frames rest h.ancestors)) := by
  obtain ⟨notes, own, last, hnotes, hlast, ho, hst, hscope, hrules⟩ :=
    openScope_eq hm (o := o) (d := d) rest
  refine ⟨notes, own, last, hnotes, hlast, ho, hst, ?_, ?_⟩
  · intro e henter
    rw [enter, hscope, henter]
    rfl
  · intro rules children henter
    refine ⟨hrules rules children henter, ?_⟩
    rw [enter, hscope, henter]
    rfl

/-! ### Subdirectories -/

variable {own : List RankedRule} {last : Nat} {rest : List Frame}
  (ho : (inside t f own last [] rest t.ancestors).rules.Ordered)
  (hst : Agrees (own ++ t.rules.rules) f.excludedBy s.standing)

include hm ho hst in
/-- Both walks judge an entry alike. -/
theorem agrees_exclusion (a : Ancestors) (e : Entry) : Agrees (own ++ t.rules.rules)
    (exclusion (inside t f own last [] rest a) f e)
    (s.judge ((own ++ t.rules.rules).map (·.rule)) e) := by
  have hpath : s.place.candidate e =
      if e.isDirectory then f.key ++ slash :: e.name ++ [slash] else f.key ++ slash :: e.name := by
    rw [Place.candidate, ← hm.absolute]
    rfl
  unfold exclusion Context.judge
  rw [hpath]
  split
  · exact hst.judge ho _ _
  · next hres =>
    rw [not_or, Bool.not_eq_true] at hres
    exact hst.judge_lost hres.1 hres.2 _ _ _

include hm ho hst in
theorem survives_eq (a : Ancestors) (e : Entry) :
    survives o (inside t f own last [] rest a) f e =
      s.reports o ((own ++ t.rules.rules).map (·.rule)) e := by
  rw [survives, Context.reports, (agrees_exclusion hm ho hst a e).isExcluded]
  rfl

include hm ho hst in
/-- What is made of the entries of a directory, by the recursion's judgement. -/
theorem foldl_visit_eq {rules : List Rule} (hrules : (own ++ t.rules.rules).map (·.rule) = rules)
    (children : List Entry) : ∃ events,
      shown events = traced o ((children.filter (s.reports o rules)).map Context.result) ∧
      children.foldl (visit o d (inside t f own last [] rest t.ancestors) f)
          { ancestors := t.ancestors } =
        { events
          frames := children.filterMap (subframe? o d (inside t f own last [] rest t.ancestors) f)
          ancestors := marked o t.ancestors f.key (children.any (s.reports o rules)) } := by
  have hsurvives : survives o (inside t f own last [] rest t.ancestors) f = s.reports o rules := by
    rw [← hrules]
    exact funext (survives_eq hm ho hst t.ancestors)
  have hshown := shown_foldl_visit o d (inside t f own last [] rest t.ancestors) f
    { ancestors := t.ancestors } children
  have hframes := frames_foldl_visit o d (inside t f own last [] rest t.ancestors) f
    { ancestors := t.ancestors } children
  have hancestors := ancestors_foldl_visit o d (inside t f own last [] rest t.ancestors) f
    { ancestors := t.ancestors } children
  rw [hsurvives] at hshown hancestors
  generalize children.foldl (visit o d (inside t f own last [] rest t.ancestors) f)
    { ancestors := t.ancestors } = h at hshown hframes hancestors ⊢
  refine ⟨h.events, ?_, ?_⟩
  · rw [hshown, traced_results]
    rfl
  · cases h
    cases hframes
    cases hancestors
    rfl

include hm ho in
/-- The frame of a subdirectory waits for the context in which this is walked. -/
theorem waits_frameOf {n : Nat} {e : Entry} (hname : Path.IsName e.name) {q : Place}
    (hq : s.place.below? o d e = some q) (hshallow : Place.Shallow o d n q) {p : Nat}
    {st : Standing} (hjudge : Agrees (own ++ t.rules.rules) p st) {a : Ancestors}
    (ha : ∀ k ∈ a.live, k = f.key ∨ k ∈ t.ancestors.live) (frames : List Frame) :
    Waits o d n f.key (inside t f own last frames rest a) (frameOf o d f p q)
      ⟨q, (own ++ t.rules.rules).map (·.rule), st⟩ := by
  obtain ⟨-, habs, hdepth, hactive, hloop⟩ := Place.below?_eq_some hq
  have hlen : f.key.length < (frameOf o d f p q).key.length := by
    have hkey : (frameOf o d f p q).key = q.absolute := by
      rw [Frame.key, frameOf, habs, Path.trimmed_join hname]
    rw [hkey, habs, Frame.key, hm.absolute]
    exact Path.length_trimmed_lt_join hname _
  refine ⟨⟨rfl, rfl, rfl, rfl, ⟨ho.sorted, ho.pos, ho.le_last⟩, hjudge, ?_, ?_, ?_, ?_, ?_⟩,
    rfl, rfl, hlen, hshallow⟩
  · rw [hactive, ← hm.active]
    rfl
  · intro l hl heq
    exact hloop l heq (hm.active ▸ hl)
  · rw [hdepth, ← hm.depth]
    rfl
  · intro c hc
    rcases List.mem_cons.1 hc with rfl | hc
    · exact hlen
    · exact Nat.lt_trans (hm.counts c hc) hlen
  · intro k hk
    rcases ha k hk with rfl | hk
    · exact hlen
    · exact Nat.lt_trans (hm.live k hk) hlen

variable (rest) in
include hm ho hst in
/-- The frames of the subdirectories wait for the contexts in which these are walked. -/
theorem waits_subframes (hd : d.WellFormed) {n : Nat} (hshallow : Place.Shallow o d (n + 1) s.place)
    {children : List Entry} (hscan : s.place.scan o d = .ok children) {a : Ancestors}
    (ha : ∀ k ∈ a.live, k = f.key ∨ k ∈ t.ancestors.live) (frames : List Frame) :
    List.Forall₂ (Waits o d n f.key (inside t f own last frames rest a))
      (children.filterMap (subframe? o d (inside t f own last [] rest t.ancestors) f))
      (children.filterMap
        (s.subcontext? o d o.descends ((own ++ t.rules.rules).map (·.rule)))) := by
  -- Both go over the same entries, so it is enough to look at one.
  refine List.rel_filterMap (R := fun e e' => e = e' ∧ e ∈ children) ?_
    (List.forall₂_same.2 fun e he => ⟨rfl, he⟩)
  rintro e _ ⟨rfl, he⟩
  have hjudge := agrees_exclusion hm ho hst t.ancestors e
  have hname := Disk.isName_of_mem_scan hd hscan he
  have hcond := hjudge.descends o
  unfold subframe? Context.subcontext? Place.subdirectory?
  rw [schedule_fst o d (inside t f own last [] rest t.ancestors) f hm.absolute hm.active hm.depth]
  generalize exclusion (inside t f own last [] rest t.ancestors) f e = p at hjudge hcond ⊢
  generalize s.judge ((own ++ t.rules.rules).map (·.rule)) e = st at hjudge hcond ⊢
  have hcond' : (p == 0 || o.ignored ||
      hasNegatedAbove (inside t f own last [] rest t.ancestors).rules.rules p) = o.descends st :=
    hcond.symm
  rw [hcond']
  have hway := hshallow children hscan e he
  unfold Place.subdirectory? at hway
  cases hdir : (e.isDirectory && o.entersDirectory e.isHidden) with
  | false => cases o.descends st <;> exact .none
  | true =>
    rw [hdir] at hway
    cases o.descends st with
    | false => exact .none
    | true =>
      cases hq : s.place.below? o d e with
      | none => exact .none
      | some q => exact .some (waits_frameOf hm ho hname hq (hway q hq) hjudge ha frames)

/-! ## Leaving -/

include hm in
/-- **Leaving a directory** takes its rules from the stack, and forgets its record and where it
is. -/
theorem leave_inside (a : Ancestors) :
    leave o (inside t f own last [] rest a) { f with entered := true } rest =
      { queue := rest
        rules :=
          { rules := t.rules.rules.drop f.seeded
            counts := t.rules.counts
            lastPriority := last }
        ancestors :=
          match o.output with
          | .files => a
          | .directories => a.leave f.key f.path f.above
        active := t.active
        depth := t.depth } := by
  have hactive : (f.identity.toList ++ t.active).filter (f.identity ≠ some ·) = t.active := by
    have hfresh : t.active.filter (f.identity ≠ some ·) = t.active :=
      List.filter_eq_self.2 fun l hl => by simpa using hm.fresh l hl
    rw [List.filter_append, hfresh]
    cases hid : f.identity with
    | none => rfl
    | some l => simp
  have hrules : RuleStack.leave (inside t f own last [] rest a).rules f.key =
      { rules := t.rules.rules.drop f.seeded, counts := t.rules.counts, lastPriority := last } := by
    have hrec : (inside t f own last [] rest a).rules.recorded f.key =
        (f.seeded + own.length : Nat) := by
      simp [RuleStack.recorded, inside]
    have hcounts := counts_filter hm
    rw [RuleStack.leave, hrec, Int.toNat_natCast]
    simp only [inside]
    rw [List.filter_cons_of_neg (by simp), hcounts, Nat.add_comm f.seeded, ← List.drop_drop,
      List.drop_left]
  unfold leave
  rw [show Frame.key { f with entered := true } = f.key from rfl, hrules]
  cases o.output <;> dsimp only [inside] <;> rw [hactive, Nat.add_sub_cancel]

include hm in
theorem key_not_mem_live : f.key ∉ t.ancestors.live := fun hmem =>
  Nat.lt_irrefl _ (hm.live f.key hmem)

include hm in
theorem leave_eq_after (any : Bool) (below : List Text) :
    leave o (inside t f own last [] rest
        (gained o (marked o t.ancestors f.key any) (some f.key) below))
      { f with entered := true } rest =
      after o t f rest last (if any || !below.isEmpty then f.path :: below else []) := by
  have hleave := Ancestors.leave_gain (key_not_mem_live hm) any below f.path f.above
  rw [leave_inside hm, after]
  unfold gained marked
  cases o.output with
  | files => rfl
  | directories => simp only [hleave]

variable (own last rest) in
include hm in
theorem leads_leave (any : Bool) (below : List Text) :
    Leads o d 1
      (inside t f own last [] rest (gained o (marked o t.ancestors f.key any) (some f.key) below))
      [] (after o t f rest last (if any || !below.isEmpty then f.path :: below else [])) :=
  .one (by simp [inside]) (by rw [← leave_eq_after hm]; rfl)

end Enter

/-! ## From entering to leaving -/

variable (o d) in
/-- What is to be shown of the walk of a directory with at most a number of levels. -/
def LeadsAfter (n : Nat) : Prop :=
  ∀ {s : Context} {t : Traversal} {f : Frame} {rest : List Frame}, Place.Shallow o d n s.place →
    Matches t f s → t.queue = f :: rest → ∃ steps events last,
      steps ≤ stepsWithin d.root.size n ∧ t.rules.lastPriority ≤ last ∧
      Leads o d steps t events (after o t f rest last (s.live o d o.descends n)) ∧
      shown events = traced o (s.walk o d o.descends n)

/-- Directories that wait one behind the other are entered and left one after the other. -/
theorem leads_siblings {n : Nat} (h : LeadsAfter o d n) {key : Text} {frames : List Frame}
    {contexts : List Context} {t : Traversal} (rest : List Frame)
    (hr : List.Forall₂ (Waits o d n key t) frames contexts)
    (hq : t.queue = frames ++ rest) : ∃ steps events last,
      steps ≤ frames.length * stepsWithin d.root.size n ∧ t.rules.lastPriority ≤ last ∧
      Leads o d steps t events (past o t key rest last
        (contexts.reverse.flatMap (Context.live o d o.descends n))) ∧
      shown events = traced o (contexts.flatMap (Context.walk o d o.descends n)) := by
  induction frames generalizing contexts t with
  | nil =>
    obtain rfl := List.forall₂_nil_left_iff.1 hr
    refine ⟨0, [], t.rules.lastPriority, Nat.zero_le _, Nat.le_refl _, ?_, ?_⟩
    · rw [List.reverse_nil, List.flatMap_nil, past, gained_nil, show rest = t.queue from hq.symm]
      exact .refl t
    · rw [List.flatMap_nil, traced_nil, shown_nil]
  | cons g frames ih =>
    obtain ⟨s, contexts, hg, htail, rfl⟩ := List.forall₂_cons_left_iff.1 hr
    obtain ⟨steps, events, last, hsteps, hlast, hleads, hshown⟩ :=
      h hg.shallow hg.toMatches (show t.queue = g :: (frames ++ rest) from hq)
    rw [after_eq_past hg.above hg.seeded] at hleads
    -- The siblings behind still wait, since nothing but the live directories has changed.
    obtain ⟨steps', events', last', hsteps', hlast', hleads', hshown'⟩ :=
      ih (htail.imp fun _ _ hg' => hg'.past hlast (frames ++ rest) (s.live o d o.descends n)) rfl
    refine ⟨steps + steps', events ++ events', last', ?_, Nat.le_trans hlast hlast', ?_, ?_⟩
    · rw [List.length_cons, Nat.succ_mul, Nat.add_comm]
      exact Nat.add_le_add hsteps' hsteps
    · have hpast := hleads.trans hleads'
      rw [past, past, gained_gained] at hpast
      rw [past, List.reverse_cons, List.flatMap_append, List.flatMap_singleton]
      exact hpast
    · rw [shown_append, hshown, hshown', List.flatMap_cons, traced_append]

theorem two_le_stepsWithin (size levels : Nat) : 2 ≤ stepsWithin size levels := by
  induction levels with
  | zero => exact Nat.le_refl 2
  | succ levels ih =>
    rw [stepsWithin, Nat.succ_mul]
    omega

theorem steps_le {len size n steps : Nat} (hlen : len < size)
    (h : steps ≤ len * stepsWithin size n) : 1 + (steps + 1) ≤ stepsWithin size (n + 1) := by
  have htwo := two_le_stepsWithin size n
  calc 1 + (steps + 1) ≤ (len + 1) * stepsWithin size n := by rw [Nat.succ_mul]; omega
    _ ≤ (size + 1) * stepsWithin size n := Nat.mul_le_mul_right _ (by omega)

/-- **A traversal of a directory walks like the recursion**, and leaves everything as it was. -/
theorem leads_after (hd : d.WellFormed) (n : Nat) : LeadsAfter o d n := by
  induction n with
  | zero => exact fun hshallow => hshallow.elim
  | succ n ih =>
    intro s t f rest hshallow hm hq
    obtain ⟨notes, own, last, hnotes, hlast, ho, hst, herror, hok⟩ :=
      enter_eq hm (o := o) (d := d) rest
    have hstep : t.step o d = enter o d t f rest := by
      rw [step, hq]
      simp [hm.entered]
    have hne : t.queue ≠ [] := by simp [hq]
    cases henter : s.enter o d with
    | error e =>
      -- Nothing waits below a directory that cannot be read, so it is left at once.
      have hentered := Leads.one hne (hstep.trans (herror e henter))
      have hleft := leads_leave hm (o := o) (d := d) own last rest false []
      have hmarked : gained o (marked o t.ancestors f.key false) (some f.key) [] =
          t.ancestors := by
        rw [gained_nil, marked]
        cases o.output <;> rfl
      rw [hmarked] at hleft
      refine ⟨1 + 1, notes ++ o.onFailure e ++ [], last, ?_, hlast, ?_, ?_⟩
      · exact steps_le (Node.size_pos d.root) (Nat.zero_le _)
      · rw [Context.live, henter]
        exact hentered.trans hleft
      · rw [Context.walk, henter, List.append_nil, shown_append, hnotes, List.nil_append,
          shown_onFailure, traced_failure]
    | ok scope =>
      obtain ⟨rules, children⟩ := scope
      obtain ⟨-, -, -, hscan⟩ := Context.enter_eq_ok henter
      obtain ⟨hrules, hentered⟩ := hok rules children henter
      obtain ⟨events, hevents, hharvest⟩ := foldl_visit_eq hm ho hst (d := d) hrules children
      rw [hharvest] at hentered
      have hwait := waits_subframes hm rest ho hst hd hshallow hscan
        (a := marked o t.ancestors f.key (children.any (s.reports o rules)))
        (fun k hk => mem_live_marked hk)
        (children.filterMap (subframe? o d (inside t f own last [] rest t.ancestors) f))
      rw [hrules] at hwait
      have hlen : (children.filterMap
          (subframe? o d (inside t f own last [] rest t.ancestors) f)).length < d.root.size :=
        Nat.lt_of_le_of_lt (List.length_filterMap_le ..) (Disk.length_scan_lt hscan)
      generalize
        children.filterMap (subframe? o d (inside t f own last [] rest t.ancestors) f) = frames
        at hentered hwait hlen
      -- It is left when all the frames in front of its own are gone.
      obtain ⟨steps, events', last', hsteps, hlast', hbelow, hshown⟩ :=
        leads_siblings ih ({ f with entered := true } :: rest) hwait rfl
      have hleft := leads_leave hm (o := o) (d := d) own last' rest
        (children.any (s.reports o rules))
        ((children.filterMap (s.subcontext? o d o.descends rules)).reverse.flatMap
          (Context.live o d o.descends n))
      refine ⟨1 + (steps + 1), notes ++ events ++ (events' ++ []), last', ?_,
        Nat.le_trans hlast hlast', ?_, ?_⟩
      · exact steps_le hlen hsteps
      · rw [hm.path] at hleft
        rw [Context.live, henter]
        exact (Leads.one hne (hstep.trans hentered)).trans (hbelow.trans hleft)
      · rw [Context.walk, henter, List.append_nil, shown_append, shown_append, hnotes,
          List.nil_append, hevents, hshown, traced_append]

end Traversal

end TreeSieve
