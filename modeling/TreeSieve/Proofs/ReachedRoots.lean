import TreeSieve.Proofs.RunEvents

/-!
# The roots that a run reaches

A run walks the roots of its arguments one after the other, and their arguments are expanded on the
way. It can fail at a root for the lack of a pattern, or at an argument that the system does not
take. So it reaches the roots before the first such place (`Session.Plan.reached`), and there it
fails (`Session.Plan.trouble?`), unless the walk of these roots has raised an error before.

The events that such a run takes are put together from those of its roots (`Session.Plan.Brings`).
If the target is none of the rule files, they are the events of the walk of the reached roots, which
knows nothing of arguments and of a target (`Session.Plan.watch_eq_walkMany`).
-/

namespace TreeSieve

/-- Whether an event tells of a result or a reported error. -/
def Event.isTold (e : Event) : Bool := e.result?.isSome || e.error?.isSome

theorem takeWhile_append_of_not_all {α : Type} {f : α → Bool} {xs : List α}
    (h : xs.all f = false) (ys : List α) : (xs ++ ys).takeWhile f = xs.takeWhile f := by
  rw [List.takeWhile_append, if_neg fun hlength => ?_]
  have hall := List.takeWhile_eq_self_iff.1 ((List.takeWhile_prefix f).eq_of_length hlength)
  rw [List.all_eq_true.2 hall] at h
  cases h

/-! ## Events without repeated results -/

theorem exists_withoutRepeats_append (seen : List Text) (es fs : List Event) : ∃ seen',
    withoutRepeats seen (es ++ fs) = withoutRepeats seen es ++ withoutRepeats seen' fs := by
  induction es generalizing seen with
  | nil => exact ⟨seen, rfl⟩
  | cons e rest ih =>
    cases e with
    | result r =>
      simp only [List.cons_append, withoutRepeats]
      split
      · exact ih seen
      · obtain ⟨seen', h⟩ := ih (r.path :: seen)
        exact ⟨seen', congrArg (_ :: ·) h⟩
    | error _ | note _ | raised _ | refused _ =>
      obtain ⟨seen', h⟩ := ih seen
      exact ⟨seen', congrArg (_ :: ·) h⟩

theorem shown_withoutRepeats (seen : List Text) (events : List Event) :
    shown (withoutRepeats seen events) = withoutRepeats seen (shown events) := by
  induction events generalizing seen with
  | nil => rfl
  | cons e rest ih =>
    have hcons : ∀ e es, shown (e :: es) = shown [e] ++ shown es := fun e => shown_append [e]
    cases e with
    | result r =>
      rw [withoutRepeats, hcons]
      by_cases hr : r.path ∈ seen
      · simpa [shown, Event.isNote, withoutRepeats, hr] using ih seen
      · simpa [shown, Event.isNote, withoutRepeats, hr] using ih (r.path :: seen)
    | error _ | note _ | raised _ | refused _ =>
      simpa [shown, Event.isNote, withoutRepeats] using ih seen

namespace Session

variable {p : Plan} {d : Disk}

/-! ## The first failure among events -/

theorem failure_of_shown (events : List Event) :
    (shown events).findSome? Failure.of? = events.findSome? Failure.of? := by
  induction events with
  | nil => rfl
  | cons e rest ih =>
    cases e with
    | result _ | error _ | note _ => exact ih
    | raised _ | refused _ => rfl

theorem failure_of_untilFinal (events : List Event) :
    (untilFinal events).findSome? Failure.of? = events.findSome? Failure.of? := by
  induction events with
  | nil => rfl
  | cons e rest ih =>
    cases e with
    | result _ | error _ | note _ => exact ih
    | raised _ | refused _ => rfl

/-- Events that show something and then bring a failure, if any. -/
def Plan.Brings (p : Plan) (d : Disk) (events before : List Event) (failure? : Option Failure) :
    Prop :=
  ∃ front back, events = front ++ back ∧ shown front = before ∧
    (∀ e ∈ front, p.failure? d e = Failure.of? e) ∧
    match failure? with
    | none => back = []
    | some failure => ∃ e rest, back = e :: rest ∧ p.failure? d e = some failure

namespace Plan.Brings

variable {events more before shownMore : List Event} {failure : Failure}
  {failure? : Option Failure}

theorem append_none (h : p.Brings d events before none)
    (hmore : p.Brings d more shownMore failure?) :
    p.Brings d (events ++ more) (before ++ shownMore) failure? := by
  obtain ⟨front, _, rfl, rfl, hfront, rfl⟩ := h
  obtain ⟨front', back, rfl, rfl, hfront', hback⟩ := hmore
  refine ⟨front ++ front', back, ?_, shown_append front front', ?_, hback⟩
  · rw [List.append_nil, List.append_assoc]
  · exact List.forall_mem_append.2 ⟨hfront, hfront'⟩

theorem append_some (h : p.Brings d events before (some failure)) (more : List Event) :
    p.Brings d (events ++ more) before (some failure) := by
  obtain ⟨front, _, rfl, hshown, hfront, e, rest, rfl, hfails⟩ := h
  exact ⟨front, e :: rest ++ more, List.append_assoc .., hshown, hfront, e, rest ++ more, rfl,
    hfails⟩

theorem withoutRepeats (h : p.Brings d events before failure?) (seen : List Text) :
    p.Brings d (withoutRepeats seen events) (withoutRepeats seen before) failure? := by
  obtain ⟨front, back, rfl, rfl, hfront, hback⟩ := h
  obtain ⟨seen', hsplit⟩ := exists_withoutRepeats_append seen front back
  refine ⟨TreeSieve.withoutRepeats seen front, TreeSieve.withoutRepeats seen' back, hsplit,
    shown_withoutRepeats seen front,
    fun e he => hfront e ((withoutRepeats_sublist seen front).subset he), ?_⟩
  cases failure? with
  | none =>
    obtain rfl : back = [] := hback
    rfl
  | some failure =>
    obtain ⟨e, rest, rfl, hfails⟩ := hback
    -- A result is no failure, so the event that brings it is still there.
    cases e with
    | result _ | error _ => cases hfails
    | note _ | raised _ | refused _ => exact ⟨_, _, rfl, hfails⟩

theorem findSome?_eq (h : p.Brings d events before failure?) :
    events.findSome? (p.failure? d) = (before.findSome? Failure.of?).or failure? := by
  obtain ⟨front, back, rfl, rfl, hfront, hback⟩ := h
  have hplain : front.findSome? (p.failure? d) = front.findSome? Failure.of? := by
    clear hback
    induction front with
    | nil => rfl
    | cons e rest ih =>
      obtain ⟨he, hrest⟩ := List.forall_mem_cons.1 hfront
      rw [List.findSome?_cons, List.findSome?_cons, he, ih hrest]
  rw [List.findSome?_append, hplain, failure_of_shown]
  cases failure? with
  | none =>
    obtain rfl : back = [] := hback
    rfl
  | some failure =>
    obtain ⟨e, rest, rfl, hfails⟩ := hback
    rw [List.findSome?_cons, hfails]

theorem filter_taken (h : p.Brings d events before failure?) :
    (p.taken d events).filter Event.isTold = (untilFinal before).filter Event.isTold := by
  obtain ⟨front, back, rfl, rfl, hfront, hback⟩ := h
  induction front with
  | nil =>
    cases failure? with
    | none =>
      obtain rfl : back = [] := hback
      rfl
    | some failure =>
      obtain ⟨e, rest, rfl, hfails⟩ := hback
      rw [List.nil_append, taken, hfails]
      cases e with
      | result _ | error _ => cases hfails
      | note _ | raised _ | refused _ => rfl
  | cons e rest ih =>
    obtain ⟨he, hrest⟩ := List.forall_mem_cons.1 hfront
    rw [List.cons_append, taken, he]
    cases e with
    | raised _ | refused _ => rfl
    | note _ => exact ih hrest
    | result _ | error _ => exact congrArg (_ :: ·) (ih hrest)

end Plan.Brings

/-! ## Roots that are reached -/

namespace Plan

variable (p : Plan) (d : Disk)

/-- Whether a run fails at a root for the lack of a pattern. -/
def stumblesAt (root : Text) : Bool := d.has root && p.stumbles d (.walking root)

/-- The roots of arguments that are walked: those before the first one at which the run fails. -/
def reached (args : List RootArgument) : List Text :=
  (RootArgument.resolveAll d args).1.takeWhile (!p.stumblesAt d ·)

/-- What a run fails at behind the roots that are walked. -/
def trouble? (args : List RootArgument) : Option Failure :=
  if (RootArgument.resolveAll d args).1.all (!p.stumblesAt d ·) then
    (RootArgument.resolveAll d args).2.map (.system · none)
  else some .noPattern

variable {p d}

/-- What the walk of a root shows. -/
def listed (p : Plan) (d : Disk) : Text → List Event :=
  Walk.listing p.options d (Context.tree p.options d p.options.descends (d.root.size + 1))

/-- Where no pattern is lacking, a run fails only at what ends the walk. -/
theorem failure?_of_not_stumbles {e : Event} (h : ∀ n, e = .note n → p.stumbles d n = false) :
    p.failure? d e = Failure.of? e := by
  cases e with
  | note n => rw [failure?, h n rfl, if_neg Bool.false_ne_true]; rfl
  | result _ | error _ | raised _ | refused _ => rfl

theorem stumbles_of_not_lacksPattern (h : p.lacksPattern = false) (n : Note) :
    p.stumbles d n = false := by
  cases n with
  | walking root => rw [stumbles, h, Bool.false_and]
  | _ => rfl

/-- Where a pattern is lacking, the roots at which a run does not fail show nothing. -/
theorem singleFile_of_not_stumbles (hlacks : p.lacksPattern = true) {root : Text}
    (h : p.stumbles d (.walking root) = false) :
    d.isDirectory root = false ∧ Walk.singleFile p.options d root = [] := by
  simp only [stumbles, hlacks, Bool.true_and, Bool.or_eq_false_iff] at h
  refine ⟨h.1, if_pos ?_⟩
  cases hskips : p.options.skipsRuleFile (Path.lastName root) with
  | true => rfl
  | false => simpa [hskips] using h.2

theorem stumblesAt_of_not_lacksPattern (h : p.lacksPattern = false) (root : Text) :
    p.stumblesAt d root = false := by
  rw [stumblesAt, stumbles_of_not_lacksPattern h, Bool.and_false]

/-- **The roots that arguments stand for** are all reached if no pattern is lacking. -/
theorem reached_of_resolvePaths (hlacks : p.lacksPattern = false)
    {patterns literals roots : List Text} (h : resolvePaths d patterns literals = .ok roots) :
    let args := patterns.map RootArgument.pattern ++ literals.map RootArgument.literal
    p.reached d args = roots ∧ p.trouble? d args = none := by
  intro args
  have hall : RootArgument.resolveAll d args = (roots, none) :=
    RootArgument.resolveAll_of_resolvePaths h
  have hroots : ∀ root ∈ roots, (!p.stumblesAt d root) = true :=
    fun root _ => by rw [stumblesAt_of_not_lacksPattern hlacks, Bool.not_false]
  rw [reached, trouble?, hall, List.takeWhile_eq_self_iff.2 hroots,
    if_pos (List.all_eq_true.2 hroots)]
  exact ⟨rfl, rfl⟩

section Steady

variable {σ : Type} {r : Receiver σ} (hr : r.Steady) (hd : d.WellFormed)

include hr hd

/-- **One root** shows what the walk by itself shows, or the run fails at it. -/
theorem exists_brings_root (path : Text) : ∃ events,
    (if p.stumblesAt d path then p.Brings d events [] (some .noPattern)
      else p.Brings d events (p.listed d path) none) ∧
      ∀ s, r.disk s = d → Walk.root p.options r path s = r.feed s events := by
  have hlevels : d.root.size < d.root.size + 1 := Nat.lt_succ_self _
  cases hhas : d.has path with
  | false =>
    refine ⟨p.options.onFailure (.rootMissing path), ?_, fun s hs => ?_⟩
    · rw [stumblesAt, hhas, Bool.false_and, if_neg Bool.false_ne_true, listed, Walk.listing,
        hhas, if_neg Bool.false_ne_true]
      refine ⟨_, [], (List.append_nil _).symm, shown_onFailure .., fun e he => ?_, rfl⟩
      unfold Options.onFailure at he
      split at he
      · rcases List.mem_pair.1 he with rfl | rfl <;> rfl
      · obtain rfl := List.mem_singleton.1 he
        rfl
    · rw [Walk.root, hs, hhas, if_neg Bool.false_ne_true]
  | true =>
    obtain ⟨below, hshown, hfile, hroot⟩ :=
      Walk.root_eq_feed_of_has hr p.options hd hlevels hhas
    refine ⟨.note (.walking path) :: below, ?_, hroot⟩
    rw [stumblesAt, hhas, Bool.true_and]
    cases hstumbles : p.stumbles d (.walking path) with
    | true =>
      have hfails : p.failure? d (.note (.walking path)) = some .noPattern := by
        rw [failure?, hstumbles, if_pos rfl]
      exact ⟨[], _, rfl, rfl, by simp, _, below, rfl, hfails⟩
    | false =>
      rw [if_neg Bool.false_ne_true, listed, Walk.listing, if_pos hhas, ← hshown]
      refine ⟨_, [], (List.append_nil _).symm, rfl, fun e he => ?_, rfl⟩
      refine failure?_of_not_stumbles fun n hn => ?_
      cases hlacks : p.lacksPattern with
      | false => exact stumbles_of_not_lacksPattern hlacks n
      | true =>
        obtain ⟨hdir, hnone⟩ := singleFile_of_not_stumbles hlacks hstumbles
        rw [hfile hdir, hnone, hn, List.mem_singleton] at he
        obtain rfl := Event.note.inj he
        exact hstumbles

theorem exists_brings_roots (paths : List Text) : ∃ events,
    p.Brings d events ((paths.takeWhile (!p.stumblesAt d ·)).flatMap (p.listed d))
      (if paths.all (!p.stumblesAt d ·) then none else some .noPattern) ∧
      ∀ s, r.disk s = d → Walk.roots p.options r paths s = r.feed s events := by
  induction paths with
  | nil => exact ⟨[], ⟨[], [], rfl, rfl, by simp, rfl⟩, fun _ _ => rfl⟩
  | cons path rest ih =>
    obtain ⟨events, hbrings, hroot⟩ := exists_brings_root (p := p) hr hd path
    obtain ⟨more, hmore, hrest⟩ := ih
    refine ⟨events ++ more, ?_, fun s hs => hr.feed_andThen hroot hrest hs⟩
    rw [List.takeWhile_cons, List.all_cons]
    cases hstumbles : p.stumblesAt d path with
    | true =>
      rw [if_pos hstumbles] at hbrings
      exact hbrings.append_some more
    | false =>
      rw [hstumbles, if_neg Bool.false_ne_true] at hbrings
      exact hbrings.append_none hmore

theorem exists_brings_arguments (args : List RootArgument) : ∃ events,
    p.Brings d events ((p.reached d args).flatMap (p.listed d)) (p.trouble? d args) ∧
      ∀ s, r.disk s = d → Walk.arguments p.options r args s = r.feed s events := by
  induction args with
  | nil => exact ⟨[], ⟨[], [], rfl, rfl, by simp, rfl⟩, fun _ _ => rfl⟩
  | cons argument rest ih =>
    rw [reached, trouble?, RootArgument.resolveAll]
    cases hresolve : argument.resolve d with
    | error fault =>
      refine ⟨[.refused fault], ⟨[], _, rfl, rfl, by simp, _, [], rfl, rfl⟩, fun s hs => ?_⟩
      rw [Walk.arguments, hs, hresolve]
    | ok found =>
      obtain ⟨paths, notes⟩ := found
      have hnotes : p.Brings d notes [] none := by
        have hunmatched := RootArgument.unmatched_of_mem_resolve hresolve
        refine ⟨notes, [], (List.append_nil _).symm, ?_, fun e he => ?_, rfl⟩
        · refine List.filter_eq_nil_iff.2 fun e he => ?_
          obtain ⟨_, rfl⟩ := hunmatched e he
          simp [Event.isNote]
        · obtain ⟨_, rfl⟩ := hunmatched e he
          rfl
      obtain ⟨events, hbrings, hroots⟩ := exists_brings_roots (p := p) hr hd paths
      obtain ⟨more, hmore, hrest⟩ := ih
      refine ⟨notes ++ (events ++ more), ?_, fun s hs => ?_⟩
      · rw [← List.nil_append (List.flatMap _ _), List.all_append]
        refine hnotes.append_none ?_
        cases hall : paths.all (!p.stumblesAt d ·) with
        | true =>
          have hpaths : ∀ path ∈ paths, (!p.stumblesAt d path) = true := List.all_eq_true.1 hall
          rw [hall, if_pos rfl, List.takeWhile_eq_self_iff.2 hpaths] at hbrings
          rw [List.takeWhile_append_of_pos hpaths, List.flatMap_append]
          exact hbrings.append_none hmore
        | false =>
          rw [hall, if_neg Bool.false_ne_true] at hbrings
          rw [takeWhile_append_of_not_all hall]
          exact hbrings.append_some more
      · rw [Walk.arguments, hs, hresolve]
        exact hr.feed_andThen (fun _ _ => rfl)
          (fun s hs => hr.feed_andThen hroots hrest hs) hs

/-- **The walk of a run** has the events that the walk of the roots by itself has, as long as the
run does not fail otherwise. -/
theorem exists_brings_many (args : List RootArgument) : ∃ events before,
    p.Brings d events before (p.trouble? d args) ∧
      untilFinal before =
        (({ options := p.options } : Walker).walkMany d (p.reached d args) none).1 ∧
      ∀ s, r.disk s = d → Walk.many p.options r args s = r.feed s events := by
  have hwalked := Walker.walkMany_eq_untilFinal { options := p.options } hd
    (Nat.lt_succ_self _) (p.reached d args)
  cases hout : p.options.output with
  | files =>
    obtain ⟨events, hbrings, hargs⟩ := exists_brings_arguments (p := p) hr hd args
    simp only [hout] at hwalked
    refine ⟨events, _, hbrings, hwalked.symm, fun s hs => ?_⟩
    simp only [Walk.many, hout]
    exact hargs s hs
  | directories =>
    obtain ⟨events, hbrings, hargs⟩ := exists_brings_arguments (p := p) hr.distinct hd args
    simp only [hout] at hwalked
    refine ⟨_, _, hbrings.withoutRepeats [], hwalked.symm, fun s hs => ?_⟩
    simp only [Walk.many, hout, hargs (s, []) hs]
    exact r.feed_distinct_eq s [] events

end Steady

/-- The events of the walk of the roots that a run reaches. -/
def walked (p : Plan) (d : Disk) : List Event :=
  (({ options := p.options } : Walker).walkMany d (p.reached d p.roots) none).1

/-- What a run raises: what the walk of the roots raises, or else what the run fails at behind them,
or what it fails at last. -/
def raised? (p : Plan) (d : Disk) (last : Option Failure) : Option Failure :=
  ((p.walked d).findSome? Failure.of?).or ((p.trouble? d p.roots).or last)

/-! ## Runs that do not read their target -/

variable {target : Target} {start : Terminal}

/-- The walk of a plan does not read the target. -/
def Spares (p : Plan) (d : Disk) (target : Target) : Prop :=
  ∀ l, target = .file l → ∀ root ∈ (RootArgument.resolveAll d p.roots).1,
    Walk.Spares p.options d l root

theorem keeps_watcher (p : Plan) (d : Disk) (l : Location) (w : Writer) :
    (watcher p (.file l) w).Keeps (d.AlikeBut l) := by
  intro s e hs
  change d.AlikeBut l (Running.receive p (.file l) w s.running e).1.terminal.disk
  refine hs.trans ?_
  rcases Running.disk_receive p (.file l) w s.running e with h | ⟨data, h⟩
  · exact h ▸ .same
  · rcases Terminal.write_eq w (.file l) s.running.terminal.signals.any s.running.terminal data
      with hwrite | hwrite
    · rw [h, hwrite]
      exact .same
    · rw [h, hwrite, Terminal.put]
      split
      · exact .of_append ‹_›
      · exact .same

/-- With plain names of rule files, a walk spares a target outside of its roots. -/
theorem spares_of_outside (hname : ∀ name, p.options.ruleFileName = some name → Path.IsName name)
    (houtside : ∀ l, target = .file l → ∀ root ∈ (RootArgument.resolveAll d p.roots).1,
      ∀ way : List Text, (∀ n ∈ way, Path.IsName n) →
        d.locate (Path.below (d.absolute root) way) ≠ .ok l) : p.Spares d target :=
  fun l hl root hroot => Walk.spares_of_outside hname (houtside l hl root hroot)

theorem watch_frozen (hd : start.disk.WellFormed) (hspares : p.Spares start.disk target) :
    Walk.many p.options
      ((watcher p target { ownsFile := target != .standardOutput }).frozen start.disk) p.roots
      { running := { terminal := start } } = p.watch target start := by
  cases target with
  | standardOutput =>
    obtain ⟨events, hmany⟩ := Walk.exists_many_eq_feed_of_steady p.options start.disk p.roots
    rw [watch, hmany (Receiver.steady_frozen _ _) _ rfl, hmany (steady_watcher p _) _ rfl,
      Receiver.feed_frozen]
  | file l => exact Walk.many_frozen hd (keeps_watcher p start.disk l _) (hspares l rfl) .same

/-- **The events of a run** are those of the walk of the roots that are reached, and what it fails
at is what that walk raises, or else what is behind these roots. -/
theorem watch_eq_walkMany (ha : start.Accepts target) (hd : start.disk.WellFormed)
    (hspares : p.Spares start.disk target) :
    let events := (p.watch target start).1.events
    events.filter Event.isTold = (p.walked start.disk).filter Event.isTold ∧
      events.findSome? (p.failure? start.disk) =
        ((p.walked start.disk).findSome? Failure.of?).or (p.trouble? start.disk p.roots) := by
  intro events
  obtain ⟨all, before, hbrings, hwalked, hmany⟩ := exists_brings_many (p := p)
    (Receiver.steady_frozen (watcher p target { ownsFile := target != .standardOutput })
      start.disk) hd p.roots
  have hwatch := hmany { running := { terminal := start } } rfl
  rw [watch_frozen hd hspares, Receiver.feed_frozen] at hwatch
  have hevents : events = p.taken start.disk all := by
    change (p.watch target start).1.events = _
    rw [hwatch]
    exact (told_feed_start ha p all).1
  rw [walked, ← hwalked, hevents, findSome?_taken, failure_of_untilFinal]
  exact ⟨hbrings.filter_taken, hbrings.findSome?_eq⟩

end Plan

end Session

end TreeSieve
