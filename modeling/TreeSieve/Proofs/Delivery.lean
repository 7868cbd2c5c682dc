import TreeSieve.Proofs.Simulation
import TreeSieve.Walk

/-!
# What a walk hands over

A receiver that leaves the file system alone takes the events of a walk as if they had all been
there from the beginning. So a walk of a tree is one call of `Receiver.feed`, and what it shows is
what the recursion shows (`Walk.tree_eq_feed`, `Walk.root_eq_feed`, `Walk.arguments_eq_feed`).

`Walker.walk_eq` and `Walker.walkMany_eq` say what this means for the collected events. Where errors
are reported no event ends the walk, so all of them arrive.
-/

namespace TreeSieve

/-! ## Receivers that leave the file system alone -/

namespace Receiver

variable {σ : Type} {r : Receiver σ}

/-- What is done with the events keeps the file system among those with a property. -/
def Keeps (r : Receiver σ) (P : Disk → Prop) : Prop :=
  ∀ s e, P (r.disk s) → P (r.disk (r.receive s e).1)

theorem Keeps.feed {P : Disk → Prop} (h : r.Keeps P) {s : σ} (hs : P (r.disk s))
    (events : List Event) : P (r.disk (r.feed s events).1) := by
  induction events generalizing s with
  | nil => exact hs
  | cons e rest ih =>
    have hfirst := h s e hs
    rw [Receiver.feed]
    split
    · next s' hreceive =>
      rw [hreceive] at hfirst
      split
      · exact hfirst
      · exact ih hfirst
    · next s' hreceive =>
      rw [hreceive] at hfirst
      exact hfirst

theorem Keeps.distinct {P : Disk → Prop} (h : r.Keeps P) : r.distinct.Keeps P := by
  rintro ⟨s, seen⟩ e hs
  cases e with
  | result result =>
    simp only [Receiver.distinct]
    split
    · exact hs
    · exact h s _ hs
  | error _ | note _ | raised _ | refused _ => exact h s _ hs

/-- The file system stays as it is, whatever is received. -/
def Steady (r : Receiver σ) : Prop := ∀ s e, r.disk (r.receive s e).1 = r.disk s

theorem Steady.keeps (hr : r.Steady) (d : Disk) : r.Keeps (· = d) :=
  fun s e hs => (hr s e).trans hs

theorem Steady.feed (hr : r.Steady) (s : σ) (events : List Event) :
    r.disk (r.feed s events).1 = r.disk s :=
  (hr.keeps (r.disk s)).feed rfl events

theorem Steady.distinct (hr : r.Steady) : r.distinct.Steady :=
  fun s e => (hr.keeps (r.disk s.1)).distinct s e rfl

theorem feed_append (s : σ) (es fs : List Event) : r.feed s (es ++ fs) =
    match r.feed s es with
    | (s, true) => r.feed s fs
    | (s, false) => (s, false) := by
  induction es generalizing s with
  | nil => rfl
  | cons e rest ih =>
    rw [List.cons_append, feed, feed]
    split
    · split
      · rfl
      · exact ih _
    · rfl

end Receiver

theorem Receiver.Steady.feed_andThen {σ : Type} {r : Receiver σ} (hr : r.Steady) {d : Disk}
    {part next : σ → σ × Bool} {es fs : List Event}
    (hpart : ∀ s, r.disk s = d → part s = r.feed s es)
    (hnext : ∀ s, r.disk s = d → next s = r.feed s fs) {s : σ} (hs : r.disk s = d) :
    (match part s with
      | (s, true) => next s
      | (s, false) => (s, false)) = r.feed s (es ++ fs) := by
  have hdisk := hr.feed s es
  rw [hpart s hs, feed_append]
  cases hfeed : r.feed s es with
  | mk s' goesOn =>
    rw [hfeed, hs] at hdisk
    cases goesOn with
    | false => rfl
    | true => exact hnext s' hdisk

theorem Collected.steady_receiver : Collected.receiver.Steady := by
  intro c e
  cases e <;> rfl

/-! ## The steps of a traversal -/

namespace Walk

variable {σ : Type} {r : Receiver σ} (hr : r.Steady) {o : Options} {d : Disk}

include hr in
/-- The events on the way to an empty queue can be handed over together. -/
theorem run_of_leads {n steps : Nat} {t u : Traversal} {events : List Event} {s : σ}
    (h : Traversal.Leads o d n t events u) (hu : u.queue = []) (hn : n ≤ steps)
    (hs : r.disk s = d) : run o r steps t s =
      match r.feed s events with
      | (s, true) => (s, some u)
      | (s, false) => (s, none) := by
  induction h generalizing steps s with
  | refl t =>
    cases steps with
    | zero => rfl
    | succ steps => rw [run, hu]; rfl
  | @step n t u events hq h ih =>
    obtain ⟨steps, rfl⟩ : ∃ k, steps = k + 1 := ⟨steps - 1, by omega⟩
    have hne : t.queue.isEmpty = false := by simpa using hq
    have hdisk := hr.feed s (t.step o d).1
    rw [run, hne, hs, Receiver.feed_append]
    simp only [Bool.false_eq_true, ↓reduceIte]
    cases hfeed : r.feed s (t.step o d).1 with
    | mk s' goesOn =>
      rw [hfeed, hs] at hdisk
      cases goesOn with
      | false => rfl
      | true => exact ih hu (by omega) hdisk

end Walk

namespace Traversal

variable (o : Options) (d : Disk)

/-- The frame at the start stands for the root of the recursion. -/
theorem matches_start (path : Text) : ∃ f : Frame,
    (start o d path).queue = [f] ∧ f.above = none ∧
      Matches (start o d path) f (Context.root o d path) := by
  obtain ⟨new, hrules, hmap, -, -, hcounts⟩ :=
    RuleStack.rules_pushAll {} (RuleStack.declared (d.absolute path) o.patterns)
  refine ⟨_, rfl, rfl, ⟨rfl, rfl, rfl, ?_, ?_, .included, ?_, ?_, rfl, ?_, ?_⟩⟩
  · rw [start, hrules, List.append_nil]
    exact hmap
  · exact RuleStack.Ordered.empty.pushAll _
  · exact List.append_nil _
  · intro l hl
    cases hl
  · intro c hc
    rw [start, hcounts] at hc
    cases hc
  · intro k hk
    cases hk

theorem shown_finish_after {path : Text} {f : Frame} (habove : f.above = none)
    (rest : List Frame) (last : Nat) (found : List Text) :
    shown (after o (start o d path) f rest last found).finish =
      match o.output with
      | .files => []
      | .directories => found.map fun path => .result ⟨Path.plain path, true⟩ := by
  have hresults : ∀ paths : List Text,
      shown (paths.map fun path => .result ⟨Path.plain path, true⟩) =
        paths.map fun path => .result ⟨Path.plain path, true⟩ := by
    intro paths
    apply List.filter_eq_self.2
    intro e he
    obtain ⟨_, -, rfl⟩ := List.mem_map.1 he
    rfl
  rw [finish, hresults]
  simp only [after, gained, habove, Ancestors.drain]
  cases o.output with
  | files => rfl
  | directories =>
    cases found with
    | nil => rfl
    | cons x found => simp [Ancestors.gain, start]

end Traversal

/-! ## Trees, roots and lists of roots -/

namespace Walk

/-- What the walk of one root shows, with what it shows of a directory given. -/
def listing (o : Options) (d : Disk) (tree : Text → List Event) (path : Text) : List Event :=
  if d.has path then
    if d.isDirectory path then tree path else singleFile o d path
  else [o.failure (.rootMissing path)]

theorem mem_singleFile {o : Options} {d : Disk} {path : Text} {e : Event}
    (he : e ∈ singleFile o d path) : ∃ r, e = .result r := by
  unfold singleFile at he
  split at he
  · cases he
  · simp only at he
    split at he
    · cases he
    · cases hout : o.output with
      | files => exact ⟨_, List.mem_singleton.1 (by simpa [hout] using he)⟩
      | directories => exact ⟨_, List.mem_singleton.1 (by simpa [hout] using he)⟩

theorem shown_singleFile (o : Options) (d : Disk) (path : Text) :
    shown (singleFile o d path) = singleFile o d path := by
  apply List.filter_eq_self.2
  intro e he
  obtain ⟨r, rfl⟩ := mem_singleFile he
  rfl

section Steady

variable {σ : Type} {r : Receiver σ} (hr : r.Steady) (o : Options) {d : Disk} (hd : d.WellFormed)
  {levels : Nat} (hlevels : d.root.size < levels)

include hr hd hlevels

/-- **The walk of a tree** hands over the events of the recursion. -/
theorem tree_eq_feed (path : Text) : ∃ events,
    shown events = Context.tree o d o.descends levels path ∧
      ∀ s, r.disk s = d → tree o r path s = r.feed s events := by
  obtain ⟨f, hq, habove, hm⟩ := Traversal.matches_start o d path
  have hshallow : Place.Shallow o d (d.root.size + 1) (Context.root o d path).place :=
    Place.shallow_root hd path (Nat.lt_succ_self _)
  obtain ⟨steps, events, last, hsteps, -, hleads, hshown⟩ :=
    Traversal.leads_after hd _ hshallow hm hq
  rw [← Context.walk_of_shallow hlevels hshallow] at hshown
  rw [← Context.live_of_shallow hlevels hshallow] at hleads
  generalize hu : Traversal.after o (Traversal.start o d path) f [] last
    ((Context.root o d path).live o d o.descends levels) = u at hleads
  have hfinish : shown u.finish =
      match o.output with
      | .files => []
      | .directories => ((Context.root o d path).live o d o.descends levels).map
          fun path => .result ⟨Path.plain path, true⟩ := by
    rw [← hu]
    exact Traversal.shown_finish_after o d habove [] last _
  refine ⟨events ++ u.finish, ?_, fun s hs => ?_⟩
  · rw [shown_append, hshown, hfinish, Context.tree, Options.listing, Traversal.traced]
    cases o.output with
    | files => exact List.append_nil _
    | directories => rfl
  · have hqueue : u.queue = [] := by rw [← hu]; rfl
    have hrun : run o r (Traversal.enoughSteps d.root.size) (Traversal.start o d path) s = _ :=
      run_of_leads hr hleads hqueue hsteps hs
    rw [tree, hs, hrun, Receiver.feed_append]
    cases r.feed s events with
    | mk s' goesOn => cases goesOn <;> rfl

/-- The walk of a root that exists is noted first. Then it hands over the events of the recursion if
the root is a directory. -/
theorem root_eq_feed_of_has {path : Text} (hhas : d.has path = true) : ∃ below,
    shown below = (if d.isDirectory path then Context.tree o d o.descends levels path
      else singleFile o d path) ∧
    (d.isDirectory path = false → below = singleFile o d path) ∧
    ∀ s, r.disk s = d → root o r path s = r.feed s (.note (.walking path) :: below) := by
  obtain ⟨below, hshown, hfile, hbelow⟩ : ∃ below,
      shown below = (if d.isDirectory path then Context.tree o d o.descends levels path
        else singleFile o d path) ∧
      (d.isDirectory path = false → below = singleFile o d path) ∧
      ∀ s, r.disk s = d → (if d.isDirectory path then tree o r path s
        else r.feed s (singleFile o d path)) = r.feed s below := by
    by_cases hdir : d.isDirectory path = true
    · obtain ⟨events, hshown, htree⟩ := tree_eq_feed hr o hd hlevels path
      simp only [hdir]
      exact ⟨events, hshown, Bool.noConfusion, htree⟩
    · simp only [hdir]
      exact ⟨_, shown_singleFile o d path, fun _ => rfl, fun s hs => rfl⟩
  refine ⟨below, hshown, hfile, fun s hs => ?_⟩
  rw [root, hs, if_pos hhas]
  have hwalking : ∀ s, r.disk s = d →
      r.feed s [.note (.walking path)] = r.feed s [.note (.walking path)] := fun _ _ => rfl
  exact hr.feed_andThen hwalking hbelow hs

/-- The walk of a root hands over the events of the recursion if it is a directory. -/
theorem root_eq_feed (path : Text) : ∃ events,
    shown events = listing o d (Context.tree o d o.descends levels) path ∧
      ∀ s, r.disk s = d → root o r path s = r.feed s events := by
  unfold listing
  by_cases hhas : d.has path = true
  · obtain ⟨below, hshown, -, hroot⟩ := root_eq_feed_of_has hr o hd hlevels hhas
    refine ⟨.note (.walking path) :: below, ?_, hroot⟩
    rw [if_pos hhas, ← hshown]
    rfl
  · refine ⟨o.onFailure (.rootMissing path), ?_, ?_⟩
    · rw [if_neg hhas, shown_onFailure]
    · intro s hs
      rw [root, hs, if_neg hhas]

/-- The walk of several roots hands over the events of one after those of the other. -/
theorem arguments_eq_feed (paths : List Text) : ∃ events,
    shown events = paths.flatMap (listing o d (Context.tree o d o.descends levels)) ∧
      ∀ s, r.disk s = d → arguments o r (paths.map .given) s = r.feed s events := by
  induction paths with
  | nil => exact ⟨[], rfl, fun s hs => rfl⟩
  | cons path rest ih =>
    obtain ⟨events, hshown, hroot⟩ := root_eq_feed hr o hd hlevels path
    obtain ⟨events', hshown', hrest⟩ := ih
    refine ⟨events ++ events', ?_, ?_⟩
    · rw [shown_append, hshown, hshown', List.flatMap_cons]
    · intro s hs
      have hone : ∀ s, r.disk s = d → roots o r [path] s = r.feed s events := by
        intro s hs
        rw [← hroot s hs, roots]
        cases root o r path s with
        | mk s' goesOn => cases goesOn <;> rfl
      exact hr.feed_andThen hone hrest hs

end Steady

end Walk

/-! ## Collected events -/

/-- The events that are left when results with a path that came before are not shown. -/
def withoutRepeats : (seen : List Text) → List Event → List Event
  | _, [] => []
  | seen, .result r :: rest =>
    if r.path ∈ seen then withoutRepeats seen rest
    else .result r :: withoutRepeats (r.path :: seen) rest
  | seen, e :: rest => e :: withoutRepeats seen rest

namespace Collected

theorem add_eq {c : Collected} (hw : c.wanted = none) (e : Event) :
    c.add e = ({ c with events := c.events ++ shown [e] }, true) := by
  cases e with
  | note n => simp [add, shown, Event.isNote]
  | result r =>
    obtain ⟨disk, events, wanted⟩ := c
    obtain rfl : wanted = none := hw
    rfl
  | error e => rfl
  | raised e => rfl
  | refused fault => rfl

theorem isFinal_of_shown {e : Event} {rest : List Event}
    (h : ∀ f ∈ shown (e :: rest), f.isFinal = false) :
    e.isFinal = false ∧ ∀ f ∈ shown rest, f.isFinal = false := by
  have hsplit : shown (e :: rest) = shown [e] ++ shown rest := shown_append [e] rest
  rw [hsplit] at h
  refine ⟨?_, fun f hf => h f (List.mem_append_right _ hf)⟩
  cases e with
  | note n => rfl
  | result r => rfl
  | error e => rfl
  | raised e => exact h _ (List.mem_append_left _ (List.mem_singleton_self _))
  | refused fault => exact h _ (List.mem_append_left _ (List.mem_singleton_self _))

/-- Without a limit all events are collected, unless one of them ends the walk. -/
theorem feed_receiver {c : Collected} (hw : c.wanted = none) {events : List Event}
    (hfinal : ∀ e ∈ shown events, e.isFinal = false) :
    receiver.feed c events = ({ c with events := c.events ++ shown events }, true) := by
  induction events generalizing c with
  | nil => simp [Receiver.feed]
  | cons e rest ih =>
    obtain ⟨he, hrest⟩ := isFinal_of_shown hfinal
    have hadd : receiver.receive c e = _ := add_eq hw e
    have hsplit : shown (e :: rest) = shown [e] ++ shown rest := shown_append [e] rest
    rw [Receiver.feed, hadd, hsplit, ← List.append_assoc]
    simp only [he, Bool.false_eq_true, ↓reduceIte]
    exact ih hw hrest

theorem distinct_receive {c : Collected} (hw : c.wanted = none) (seen : List Text) (e : Event) :
    ∃ seen', receiver.distinct.receive (c, seen) e =
        (({ c with events := c.events ++ withoutRepeats seen (shown [e]) }, seen'), true) ∧
      ∀ rest, withoutRepeats seen (shown [e] ++ rest) =
        withoutRepeats seen (shown [e]) ++ withoutRepeats seen' rest := by
  have hadd := add_eq hw e
  cases e with
  | result r =>
    by_cases hr : r.path ∈ seen
    · refine ⟨seen, ?_, fun rest => ?_⟩ <;>
        simp [Receiver.distinct, withoutRepeats, shown, Event.isNote, hr]
    · refine ⟨r.path :: seen, ?_, fun rest => ?_⟩
      · simp only [Receiver.distinct, receiver, if_neg hr, hadd]
        simp [withoutRepeats, shown, Event.isNote, hr]
      · simp [withoutRepeats, shown, Event.isNote, hr]
  | note _ | error _ | raised _ | refused _ =>
    refine ⟨seen, ?_, fun rest => ?_⟩
    · simp [Receiver.distinct, receiver, hadd, withoutRepeats, shown, Event.isNote]
    · simp [withoutRepeats, shown, Event.isNote]

theorem feed_distinct {c : Collected} (hw : c.wanted = none) (seen : List Text)
    {events : List Event} (hfinal : ∀ e ∈ shown events, e.isFinal = false) :
    ∃ seen', receiver.distinct.feed (c, seen) events =
      (({ c with events := c.events ++ withoutRepeats seen (shown events) }, seen'), true) := by
  induction events generalizing c seen with
  | nil => exact ⟨seen, by simp [Receiver.feed, withoutRepeats]⟩
  | cons e rest ih =>
    obtain ⟨he, hrest⟩ := isFinal_of_shown hfinal
    obtain ⟨seen', hreceive, hsplit⟩ := distinct_receive hw seen e
    have hshown : shown (e :: rest) = shown [e] ++ shown rest := shown_append [e] rest
    rw [Receiver.feed, hreceive, hshown, hsplit, ← List.append_assoc]
    simp only [he, Bool.false_eq_true, ↓reduceIte]
    exact ih (c := { c with events := c.events ++ withoutRepeats seen (shown [e]) }) hw seen' hrest

end Collected

/-! ## Walkers that report errors -/

section Report

variable {o : Options} (hreport : o.onError = .report) (d : Disk)

include hreport

theorem isFinal_failure (e : WalkError) : (o.failure e).isFinal = false := by
  rw [Options.failure, hreport]
  rfl

theorem isFinal_walk (into : Standing → Bool) (levels : Nat) (s : Context) :
    ∀ e ∈ s.walk o d into levels, e.isFinal = false := by
  induction levels generalizing s with
  | zero =>
    intro e he
    cases he
  | succ levels ih =>
    intro e he
    rw [Context.walk] at he
    cases henter : s.enter o d with
    | error failure =>
      rw [henter] at he
      rw [List.mem_singleton.1 he]
      exact isFinal_failure hreport failure
    | ok scope =>
      obtain ⟨rules, children⟩ := scope
      rw [henter] at he
      rcases List.mem_append.1 he with hresult | hbelow
      · obtain ⟨_, -, rfl⟩ := List.mem_map.1 hresult
        rfl
      · obtain ⟨s', -, hs'⟩ := List.mem_flatMap.1 hbelow
        exact ih s' e hs'

theorem isFinal_tree (into : Standing → Bool) (levels : Nat) (path : Text) :
    ∀ e ∈ Context.tree o d into levels path, e.isFinal = false := by
  intro e he
  rw [Context.tree, Options.listing] at he
  cases hout : o.output with
  | files =>
    rw [hout] at he
    exact isFinal_walk hreport d into levels _ e he
  | directories =>
    rw [hout] at he
    rcases List.mem_append.1 he with herror | hresult
    · exact isFinal_walk hreport d into levels _ e (List.mem_of_mem_filter herror)
    · obtain ⟨_, -, rfl⟩ := List.mem_map.1 hresult
      rfl

theorem isFinal_listing {tree : Text → List Event}
    (htree : ∀ path, ∀ e ∈ tree path, e.isFinal = false) (path : Text) :
    ∀ e ∈ Walk.listing o d tree path, e.isFinal = false := by
  intro e he
  unfold Walk.listing at he
  split at he
  · split at he
    · exact htree path e he
    · obtain ⟨r, rfl⟩ := Walk.mem_singleFile he
      rfl
  · rw [List.mem_singleton.1 he]
    exact isFinal_failure hreport _

end Report

namespace Walker

/-- What the walk of a root reports. -/
def results (w : Walker) (d : Disk) (root : Text) : List Result :=
  (w.walk d root none).1.filterMap Event.result?

/-- What the walk of several roots reports. -/
def resultsMany (w : Walker) (d : Disk) (roots : List Text) : List Result :=
  (w.walkMany d roots none).1.filterMap Event.result?

/-- A walk in which no event is final shows all that the recursion shows. -/
theorem walk_eq_of_not_isFinal {w : Walker} {d : Disk} (hd : d.WellFormed) {levels : Nat}
    (hlevels : d.root.size < levels) {path : Text}
    (hfinal : ∀ e ∈ Walk.listing w.options d
      (Context.tree w.options d w.options.descends levels) path, e.isFinal = false) :
    (w.walk d path none).1 =
      Walk.listing w.options d (Context.tree w.options d w.options.descends levels) path := by
  obtain ⟨events, hshown, hroot⟩ :=
    Walk.root_eq_feed Collected.steady_receiver w.options hd hlevels path
  rw [← hshown] at hfinal ⊢
  have hfeed := Collected.feed_receiver (c := { disk := d }) rfl hfinal
  rw [walk, remember, collect, if_neg (by simp), hroot _ rfl, hfeed]
  rfl

section Report

variable {w : Walker} (hreport : w.options.onError = .report) {d : Disk} (hd : d.WellFormed)
  {levels : Nat} (hlevels : d.root.size < levels)

include hreport hd hlevels

/-- **The events of a walk** are those of the recursion. -/
theorem walk_eq (path : Text) : (w.walk d path none).1 =
    Walk.listing w.options d (Context.tree w.options d w.options.descends levels) path :=
  walk_eq_of_not_isFinal hd hlevels
    (isFinal_listing hreport d (isFinal_tree hreport d w.options.descends levels) path)

theorem results_of_isDirectory {root : Text} (hroot : d.isDirectory root = true) :
    w.results d root =
      match w.options.output with
      | .files =>
        (Context.root w.options d root).results w.options d w.options.descends levels
      | .directories =>
        ((Context.root w.options d root).live w.options d w.options.descends levels).map
          fun path => ⟨Path.plain path, true⟩ := by
  rw [results, walk_eq hreport hd hlevels, Walk.listing, if_pos (Disk.has_of_isDirectory hroot),
    if_pos hroot, Context.tree, Options.results_listing]
  rfl

omit hlevels in
theorem results_of_not_isDirectory {root : Text} (hroot : d.isDirectory root = false) :
    w.results d root =
      if d.has root then (Walk.singleFile w.options d root).filterMap Event.result? else [] := by
  rw [results, walk_eq hreport hd (Nat.lt_succ_self _), Walk.listing, hroot,
    if_neg Bool.false_ne_true]
  split
  · rfl
  · rw [Options.failure, hreport]
    rfl

/-- The events of a walk of several roots are those of the roots. -/
theorem walkMany_eq (roots : List Text) : (w.walkMany d roots none).1 =
    match w.options.output with
    | .files => roots.flatMap fun path => (w.walk d path none).1
    | .directories => withoutRepeats [] (roots.flatMap fun path => (w.walk d path none).1) := by
  have hall : (roots.flatMap fun path => (w.walk d path none).1) =
      roots.flatMap (Walk.listing w.options d
        (Context.tree w.options d w.options.descends levels)) := by
    apply List.flatMap_congr
    intro path _
    exact walk_eq hreport hd hlevels path
  have hfinal : ∀ e ∈ roots.flatMap (Walk.listing w.options d
      (Context.tree w.options d w.options.descends levels)), e.isFinal = false := by
    intro e he
    obtain ⟨path, -, he⟩ := List.mem_flatMap.1 he
    exact isFinal_listing hreport d (isFinal_tree hreport d w.options.descends levels) path e he
  rw [hall, walkMany, remember, collect, if_neg (by simp), Walk.many]
  cases hout : w.options.output with
  | files =>
    obtain ⟨events, hshown, hfed⟩ :=
      Walk.arguments_eq_feed Collected.steady_receiver w.options hd hlevels roots
    rw [← hshown] at hfinal ⊢
    have hfeed := Collected.feed_receiver (c := { disk := d }) rfl hfinal
    simp only [hfed { disk := d } rfl, hfeed]
    rfl
  | directories =>
    obtain ⟨events, hshown, hfed⟩ :=
      Walk.arguments_eq_feed Collected.steady_receiver.distinct w.options hd hlevels roots
    rw [← hshown] at hfinal ⊢
    obtain ⟨seen, hfeed⟩ :=
      Collected.feed_distinct (c := { disk := d }) rfl [] hfinal
    simp only [hfed ({ disk := d }, []) rfl, hfeed]
    rfl

end Report

end Walker

end TreeSieve
