import TreeSieve.Proofs.EndedRuns
import TreeSieve.Proofs.NulRecords
import TreeSieve.Proofs.ReachedRoots

/-!
# What a run reports

A run tells of the results and errors of its walk and then of the error that is raised, if any, and
it ends with the status one exactly if there was an error (`Session.Reports`). This is so for the
events that it takes, whatever they are, and if the target is none of the rule files these are the
events of the walk of the roots by itself (`Session.run_reports`).

Where errors end a run, that walk shows what the reporting walk shows before its first error. So
both runs have the same status, and the run that is ended by an error has written the records before
it.
-/

namespace TreeSieve

namespace Session

open CommandLine

/-! ## Records of results alone -/

namespace Plan

variable (p : Plan)

theorem flatMap_record_told (events : List Event) :
    (events.filter Event.isTold).flatMap p.record = events.flatMap p.record := by
  induction events with
  | nil => rfl
  | cons e rest ih =>
    rw [List.flatMap_cons, ← ih]
    cases e <;> rfl

theorem recordsBeforeError_told (events : List Event) :
    p.recordsBeforeError (events.filter Event.isTold) = p.recordsBeforeError events := by
  induction events with
  | nil => rfl
  | cons e rest ih =>
    cases e with
    | result r => exact congrArg (p.record (.result r) ++ ·) ih
    | error _ => rfl
    | note _ | raised _ | refused _ => exact ih

end Plan

/-! ## Reports -/

/-- How a run ends that has started with its target open, if it tells of events and then of an error
that is raised, if any. Notes for the log can be among the messages. -/
structure Reports (p : Plan) (target : Target) (start : Terminal) (events : List Event)
    (raised : Option Failure) (ended : Terminal × Exit) : Prop where
  writes : start.Writes target ended.1
  content_eq : ∀ old, start.content? target = some old →
    ended.1.content? target = some (old ++ events.flatMap p.record)
  messages_eq : ∃ logged : List Event,
    logged.filter Event.isTold = events.filter Event.isTold ∧
      ended.1.messages = start.messages ++ logged.flatMap p.message ++
        (raised.map fun failure => Terminal.lineBytes ("Error: " ++ failure.message)).getD []
  exit_eq : ended.2 =
    { status := if raised = none ∧ ∀ e ∈ events, e.error? = none then 0 else 1 }

namespace Reports

variable {p : Plan} {target : Target} {start : Terminal} {events : List Event}
  {ended : Terminal × Exit} {raised : Option Failure}

theorem error?_filter (events : List Event) :
    (∀ e ∈ events.filter Event.isTold, e.error? = none) ↔ ∀ e ∈ events, e.error? = none := by
  refine ⟨fun h e he => ?_, fun h e he => h e (List.mem_of_mem_filter he)⟩
  cases herror : e.error? with
  | none => rfl
  | some error =>
    have htold : e.isTold = true := by simp [Event.isTold, herror]
    exact (h e (List.mem_filter.2 ⟨he, htold⟩)).symm.trans herror |>.symm

/-- Only results and reported errors matter. -/
theorem congr (h : Reports p target start events raised ended) {told : List Event}
    (htold : events.filter Event.isTold = told.filter Event.isTold) :
    Reports p target start told raised ended where
  writes := h.writes
  content_eq old hold := by
    rw [h.content_eq old hold, ← p.flatMap_record_told events, htold,
      p.flatMap_record_told told]
  messages_eq := by
    obtain ⟨logged, hlogged, hmessages⟩ := h.messages_eq
    exact ⟨logged, hlogged.trans htold, hmessages⟩
  exit_eq := by
    have herrors := error?_filter events
    rw [htold, error?_filter told] at herrors
    rw [h.exit_eq]
    simp only [herrors]

/-- Without log records standard error has the errors and nothing else. -/
theorem messages_of_not_verbose (h : Reports p target start events raised ended)
    (hverbose : p.verbose = false) : ended.1.messages =
      start.messages ++ events.flatMap p.message ++
        (raised.map fun failure => Terminal.lineBytes ("Error: " ++ failure.message)).getD [] := by
  have hfilter : ∀ es : List Event,
      (es.filter Event.isTold).flatMap p.message = es.flatMap p.message := by
    intro es
    induction es with
    | nil => rfl
    | cons e rest ih =>
      rw [List.flatMap_cons, ← ih]
      cases e with
      | note n => rw [Plan.message, hverbose, if_neg Bool.false_ne_true]; rfl
      | result _ | error _ | raised _ | refused _ => rfl
  obtain ⟨logged, hlogged, hmessages⟩ := h.messages_eq
  rw [hmessages, ← hfilter logged, hlogged, hfilter events]

variable {s : Watched} (htold : Told p target { running := { terminal := start } } s events)

include htold

theorem of_fail (failure : Failure) :
    Reports p target start events (some failure) (fail s.running.terminal failure) where
  writes := htold.writes.trans (.of_messages _ _ _)
  content_eq old hold := by
    have hsame : (fail s.running.terminal failure).1.content? target =
        s.running.terminal.content? target := by cases target <;> rfl
    rw [hsame]
    exact htold.content_eq old hold
  messages_eq := ⟨events, rfl, by
    rw [fail, Terminal.say_messages, htold.messages_eq]
    rfl⟩
  exit_eq := by simp [fail]

theorem of_end (ha : start.Accepts target) : Reports p target start events none
    (s.running.terminal,
      { status := statusOf s.running.terminal.signals s.running.hadErrors }) where
  writes := htold.writes
  content_eq := htold.content_eq
  messages_eq := ⟨events, rfl, by
    rw [htold.messages_eq]
    exact (List.append_nil _).symm⟩
  exit_eq := by
    have hquiet := (htold.writes.accepts ha).quiet
    simp only [Signals.any, Bool.or_eq_false_iff] at hquiet
    rw [statusOf, hquiet.1, hquiet.2, htold.hadErrors_eq]
    by_cases hnone : (none : Option Failure) = none ∧ ∀ e ∈ events, e.error? = none
    · have hany : (events.any fun e => e.error?.isSome) = false :=
        List.any_eq_false.2 fun e he => by simp [hnone.2 e he]
      rw [hany, if_pos hnone]
      rfl
    · have hany : (events.any fun e => e.error?.isSome) = true := by
        simp only [true_and, not_forall] at hnone
        obtain ⟨e, he, herror⟩ := hnone
        exact List.any_eq_true.2 ⟨e, he, Option.isSome_iff_ne_none.2 herror⟩
      rw [hany, if_neg hnone]
      rfl

end Reports

/-- What a run fails at when all its roots have been walked. -/
def lastly (s : Settings) : Option Failure :=
  if (usable s.literalPaths).2 then some .noPath else none

variable {s s' : Settings} {t start : Terminal} {target : Target} {plan : Plan}

theorem reports_runSettings (hvalidate : s.validate = .ok s') (hplan : planOf s' = .ok plan)
    (hopen : openTarget s' t = .ok (target, start)) (ha : start.Accepts target) :
    let p := plan.lacking s.patterns
    let events := (p.watch target start).1.events
    Reports p target start events ((events.findSome? (p.failure? start.disk)).or (lastly s))
      (runSettings s t) := by
  intro p events
  have hprepare : prepare s t = .ok (plan, target, start) := by
    unfold prepare
    simp only [hvalidate, Except.mapError, bind, Except.bind, hplan, hopen]
    rfl
  obtain ⟨htold, hfailure, hends⟩ := Plan.told_watch ha p
  have hwalk : (plan.lacking s.patterns).walk target start =
      ((p.watch target start).1.running, (p.watch target start).2) :=
    Prod.ext (p.watch_eq_walk target start).1.symm (p.watch_eq_walk target start).2.symm
  unfold prepare at hprepare
  unfold runSettings
  simp only [hprepare, hwalk, hfailure, hends]
  cases hfails : events.findSome? (p.failure? start.disk) with
  | some failure =>
    exact .of_fail htold failure
  | none =>
    rw [lastly]
    cases (usable s.literalPaths).2 with
    | true => exact .of_fail htold .noPath
    | false => exact .of_end htold ha

theorem reports_walked (hvalidate : s.validate = .ok s') (hplan : planOf s' = .ok plan)
    (hopen : openTarget s' t = .ok (target, start)) (ha : start.Accepts target)
    (hd : start.disk.WellFormed) :
    let p := plan.lacking s.patterns
    p.Spares start.disk target →
      Reports p target start (p.walked start.disk) (p.raised? start.disk (lastly s))
        (runSettings s t) := by
  intro p hspares
  have hreports := reports_runSettings hvalidate hplan hopen ha
  obtain ⟨htold, hraised⟩ := Plan.watch_eq_walkMany ha hd hspares
  simp only [p, hraised, Option.or_assoc] at hreports
  exact hreports.congr htold

/-- **A run reports what the walk did.** Its records, its messages and its status are those of the
events that it takes, and if the walk spares the target these are the events of the walk of the
reached roots by itself. A run that an error ends has the same status as the run that reports
errors, and it has written the records before the first error. If the settings have no plan, for the
lack of a value, nothing is walked. -/
theorem run_reports {args : List Text} (hparse : parse args = .ok s)
    (hvalidate : s.validate = .ok s') (hopen : openTarget s' t = .ok (target, start))
    (ha : start.Accepts target) (hd : start.disk.WellFormed) :
    match planOf s' with
    | .error failure =>
      run args t = fail t failure ∧
        ∀ args', s.failureMode = some .report → parse args' = .ok (failing s) →
          run args' t = run args t
    | .ok plan =>
      let p := plan.lacking s.patterns
      let seen := (p.watch target start).1
      seen.taken = seen.events.flatMap p.record ∧
      Reports p target start seen.events
        ((seen.events.findSome? (p.failure? start.disk)).or (lastly s)) (run args t) ∧
      (p.Spares start.disk target →
        seen.taken = (p.walked start.disk).flatMap p.record ∧
        p.recordsBeforeError seen.events = p.recordsBeforeError (p.walked start.disk) ∧
        Reports p target start (p.walked start.disk) (p.raised? start.disk (lastly s))
          (run args t)) ∧
      ∀ args', s.failureMode = some .report → parse args' = .ok (failing s) →
        (run args' t).2 = (run args t).2 ∧
        (p.failing.watch target start).1.taken = p.recordsBeforeError seen.events ∧
        ∀ old, start.content? target = some old →
          (run args' t).1.content? target = some (old ++ p.recordsBeforeError seen.events) := by
  have hrun : ∀ {args s}, parse args = .ok s → run args t = runSettings s t := by
    intro args s h
    rw [run, h]
  have hmode : s'.failureMode = s.failureMode := by
    rcases validate_eq_ok hvalidate with rfl | rfl <;> rfl
  have hvalidate' : (failing s).validate = .ok (failing s') := by
    rw [validate_failing, hvalidate]
    rfl
  rw [hrun hparse]
  cases hplan : planOf s' with
  | error failure =>
    have hfails : ∀ {s s'}, s.validate = .ok s' → planOf s' = .error failure →
        runSettings s t = fail t failure := by
      intro s s' hvalidate hplan
      unfold runSettings
      simp only [hvalidate, Except.mapError, bind, Except.bind, hplan]
    refine ⟨hfails hvalidate hplan, fun args' hreport hparse' => ?_⟩
    have hplan' := (planOf_failing (hmode.trans hreport)).1
    rw [hplan] at hplan'
    rw [hrun hparse', hfails hvalidate hplan, hfails hvalidate' hplan']
  | ok plan =>
    dsimp only
    set p := plan.lacking s.patterns with hp
    have htaken : ∀ p : Plan, (p.watch target start).1.taken =
        (p.watch target start).1.events.flatMap p.record :=
      fun p => (Plan.told_watch ha p).1.taken_eq
    have hreports := reports_runSettings hvalidate hplan hopen ha
    refine ⟨htaken p, hreports, fun hspares => ?_, fun args' hreport hparse' => ?_⟩
    · obtain ⟨htold, -⟩ := Plan.watch_eq_walkMany ha hd hspares
      refine ⟨?_, ?_, reports_walked hvalidate hplan hopen ha hd hspares⟩
      · rw [htaken, ← p.flatMap_record_told, htold, p.flatMap_record_told]
      · rw [← p.recordsBeforeError_told, htold, p.recordsBeforeError_told]
    · obtain ⟨hplan', honError⟩ := planOf_failing (hmode.trans hreport)
      rw [hplan] at hplan'
      have hreports' := reports_runSettings hvalidate' hplan' hopen ha
      have hlacking : plan.failing.lacking (failing s).patterns = p.failing :=
        lacking_failing plan s.patterns
      have honError' : p.options.onError = .report := by
        rw [hp, Plan.lacking]
        split <;> exact honError plan hplan
      obtain ⟨hrecords, hnone, hfails⟩ := Plan.events_watch_failing ha honError'
      rw [hlacking] at hreports'
      rw [hrun hparse']
      refine ⟨?_, (htaken p.failing).trans hrecords, fun old hold => ?_⟩
      · have hfailure : p.failing.failure? start.disk = p.failure? start.disk := rfl
        have hlast : lastly (failing s) = lastly s := rfl
        rw [hreports'.exit_eq, hreports.exit_eq, hfailure, hlast]
        simp only [Option.or_eq_none_iff, hfails]
        congr 2
        exact propext ⟨fun h => ⟨⟨h.1.1.1, h.1.2⟩, h.1.1.2⟩,
          fun h => ⟨⟨⟨h.1.1, h.2⟩, h.1.2⟩, hnone⟩⟩
      · rw [hreports'.content_eq old hold]
        exact congrArg (fun bytes => some (old ++ bytes)) hrecords

/-- Between two directories a root is missing, and a directory in the first one cannot be listed. -/
theorem run_reports_two_errors :
    let t : Terminal := { disk := ⟨.directory [("w", .directory [(".r", .file (Utf8.encode "x")),
      ("a", .file []), ("b", .directory []), ("x", .file [])]),
      ("v", .directory [("c", .file [])])], [], [["w", "b"]]⟩ }
    let args (action : Text) : List Text :=
      ["-n", ".r", "-o", "/out", "--error-action", action, "/w", "/none", "/v"]
    (run (args "report") t).2 = { status := 1 } ∧ (run (args "fail") t).2 = { status := 1 } ∧
      (run (args "report") t).1.content? (.file ["out"]) = some (Utf8.encode "/w/a\n/v/c\n") ∧
      (run (args "fail") t).1.content? (.file ["out"]) = some (Utf8.encode "/w/a\n") ∧
      (run (args "report") t).1.messages =
        Terminal.lineBytes "Error: Cannot read /w/b: Permission denied" ++
          Terminal.lineBytes "Error: Path not found: /none" := by
  intro t args
  let s : Settings :=
    { paths := ["/w", "/none", "/v"], ruleFileName := some (some ".r"),
      output := some (some "/out") }
  let start : Terminal := { disk := ⟨.directory [("w", .directory [(".r", .file (Utf8.encode "x")),
      ("a", .file []), ("b", .directory []), ("x", .file [])]),
      ("v", .directory [("c", .file [])]), ("out", .file [])], [], [["w", "b"]]⟩ }
  let p : Plan :=
    { options := { ruleFileName := some ".r" }
      roots := [.pattern "/w", .pattern "/none", .pattern "/v"]
      terminator := .lineFeed
      verbose := false }
  have hparse : parse (args "report") = .ok s := by cbv
  have hparse' : parse (args "fail") = .ok (failing s) := by cbv
  have hopen : openTarget s t = .ok (.file ["out"], start) := by cbv
  have haccepts : start.Accepts (.file ["out"]) := ⟨rfl, fun bytes => by cbv⟩
  have hplan : planOf s = .ok p := by cbv
  have hspares : p.Spares start.disk (.file ["out"]) := by
    rintro l ⟨⟩ root -
    refine Walk.spares_of_name (by decide) ?_ root
    rintro name ⟨⟩
    exact ⟨by decide, by decide⟩
  have hwalked : p.walked start.disk = [.result ⟨"/w/a", false⟩,
      .error (.unreadable "/w/b" (.ofFault .denied)), .error (.rootMissing "/none"),
      .result ⟨"/v/c", false⟩] := by cbv
  have hreports := run_reports hparse rfl hopen haccepts (by decide)
  rw [hplan] at hreports
  obtain ⟨-, -, hwhole, hfail⟩ := hreports
  obtain ⟨-, hbefore, hreport⟩ := hwhole hspares
  obtain ⟨hexit', -, hcontent'⟩ := hfail (args "fail") rfl hparse'
  rw [hbefore] at hcontent'
  have hlacking : p.lacking s.patterns = p := rfl
  have hraised : p.raised? start.disk (lastly s) = none := by
    rw [Plan.raised?, hwalked]
    cbv
  rw [hlacking, hwalked, hraised] at hreport
  rw [hlacking, hwalked] at hcontent'
  have hexit : (run (args "report") t).2 = { status := 1 } := by
    rw [hreport.exit_eq]
    decide
  refine ⟨hexit, hexit'.trans hexit, ?_, ?_, ?_⟩
  · rw [hreport.content_eq [] rfl]
    cbv
  · rw [hcontent' [] rfl]
    cbv
  · rw [hreport.messages_of_not_verbose rfl]
    cbv

end Session

end TreeSieve
