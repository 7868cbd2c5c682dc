import TreeSieve.Proofs.EndedWalks
import TreeSieve.Proofs.RunEvents

/-!
# Runs that are ended by errors, and the same runs with errors reported

A run that an error ends takes what the run that reports errors takes before its first error
(`Session.Plan.events_watch_failing`). The messages of the two differ, but nothing that is written
depends on these (`Terminal.write_messages`), so both walk the same file systems on the way, even if
what is written changes them.
-/

namespace TreeSieve

namespace Terminal

/-! ## Messages do not matter for a target -/

variable (t : Terminal) (target : Target) (messages : List UInt8)

theorem put_messages (bytes : List UInt8) : ({ t with messages } : Terminal).put target bytes =
    ({ (t.put target bytes).1 with messages }, (t.put target bytes).2) := by
  cases target with
  | standardOutput =>
    rw [put, put]
    split <;> rfl
  | file location =>
    simp only [put]
    cases t.disk.append location bytes <;> rfl

theorem write_messages (w : Writer) (interrupted : Bool) (data : Text) :
    w.write (sink target) interrupted { t with messages } data =
      ({ (w.write (sink target) interrupted t data).1 with messages },
        (w.write (sink target) interrupted t data).2) := by
  cases hw : w.closed with
  | true => simp only [Writer.write_of_closed hw]
  | false =>
    cases interrupted with
    | true => simp only [Writer.write_of_interrupted hw]
    | false =>
      simp only [Writer.write_of_open hw]
      cases Utf8.encode data with
      | nil => rfl
      | cons b bytes => simp only [deliverAll_sink, put_messages]

end Terminal

namespace Session

open CommandLine

/-! ## Watched runs -/

/-- Two watched runs have come to the same, but for their messages. -/
def Watched.Matches (s' s : Watched) : Prop :=
  ∃ messages, s'.running.terminal = { s.running.terminal with messages }

theorem Watched.Matches.of_messages {s' s : Watched} (h : s'.Matches s) {u' u : Watched}
    (hu' : ∃ messages, u'.running.terminal = { s'.running.terminal with messages })
    (hu : ∃ messages, u.running.terminal = { s.running.terminal with messages }) :
    u'.Matches u := by
  obtain ⟨_, h⟩ := h
  obtain ⟨messages, hu'⟩ := hu'
  obtain ⟨_, hu⟩ := hu
  exact ⟨messages, by rw [hu', hu, h]⟩

theorem goesOn_note (p : Plan) (target : Target) (w : Writer) (r : Running) (n : Note) :
    (Running.receive p target w r (.note n)).2 = !p.stumbles r.terminal.disk n := by
  have hdisk : (if p.verbose then { r with terminal := r.terminal.log n } else r).terminal.disk =
      r.terminal.disk := by
    split <;> rfl
  simp only [Running.receive, hdisk]
  cases p.stumbles r.terminal.disk n <;> rfl

/-- A run that takes errors as the end goes along with the run that reports them. -/
theorem follows_ending (p : Plan) (target : Target) (w : Writer) :
    (watcher p target w).ending.Follows (watcher p target w) Watched.Matches where
  disk := by
    rintro s' s ⟨messages, h⟩
    change s'.running.terminal.disk = s.running.terminal.disk
    rw [h]
  receive := by
    rintro s' s e hmatches hgoes
    cases e with
    | result result =>
      obtain ⟨messages, h⟩ := hmatches
      obtain ⟨hterminal', hok'⟩ := Running.receive_result p target w s'.running result
      obtain ⟨hterminal, hok⟩ := Running.receive_result p target w s.running result
      have hwrite := Terminal.write_messages s.running.terminal target messages w
        s.running.terminal.signals.any (result.path ++ [p.terminator])
      rw [h, hwrite] at hterminal' hok'
      exact ⟨hok.2 (hok'.1 hgoes), messages, hterminal'.trans (hterminal ▸ rfl)⟩
    | note n =>
      have hsame :
          p.stumbles s'.running.terminal.disk n = p.stumbles s.running.terminal.disk n := by
        obtain ⟨messages, h⟩ := hmatches
        rw [h]
      have hshown := Running.receive_of_not_result p target w s.running (e := .note n) rfl
      have hshown' := Running.receive_of_not_result p target w s'.running (e := .note n) rfl
      have hgoesOn := goesOn_note p target w s.running n
      have hgoesOn' := goesOn_note p target w s'.running n
      cases n with
      | reported error => exact ⟨hgoesOn, hmatches.of_messages ⟨_, rfl⟩ hshown⟩
      | walking _ | loaded _ _ | tooDeep _ _ | loop _ | unmatched _ =>
        have hgoes' : (Running.receive p target w s'.running (.note _)).2 = true := hgoes
        rw [hgoesOn', hsame] at hgoes'
        exact ⟨hgoesOn.trans hgoes', hmatches.of_messages hshown' hshown⟩
    | error _ | raised _ | refused _ => cases hgoes

/-! ## The events of both runs -/

namespace Plan

/-- The plan with which errors end a run. -/
def failing (p : Plan) : Plan := { p with options := p.options.withErrorAction .raise }

/-- The bytes of the records before the first reported error. -/
def recordsBeforeError (p : Plan) (events : List Event) : List UInt8 :=
  (events.takeWhile (·.error?.isNone)).flatMap p.record

variable {p : Plan} {d : Disk}

theorem failure?_raising (e : Event) : (∀ f ∈ e.raising, p.failure? d f = none) ↔
    p.failure? d e = none ∧ e.error? = none := by
  cases e with
  | error _ => simp [Event.raising, Event.error?, failure?, Failure.of?]
  | note n => cases n <;> simp [Event.raising, Event.error?, failure?, stumbles]
  | result _ | raised _ | refused _ => simp [Event.raising, Event.error?]

theorem error?_of_mem_raising {e f : Event} (h : f ∈ e.raising) : f.error? = none := by
  cases e with
  | error _ => exact List.mem_singleton.1 h ▸ rfl
  | note n => cases n with
    | reported _ => cases h
    | walking _ | loaded _ _ | tooDeep _ _ | loop _ | unmatched _ =>
      exact List.mem_singleton.1 h ▸ rfl
  | result _ | raised _ | refused _ => exact List.mem_singleton.1 h ▸ rfl

theorem findSome?_flatMap_raising (events : List Event) :
    (events.flatMap Event.raising).findSome? (p.failure? d) = none ↔
      events.findSome? (p.failure? d) = none ∧ ∀ e ∈ p.taken d events, e.error? = none := by
  induction events with
  | nil => simp [taken]
  | cons e rest ih =>
    have hone := failure?_raising (p := p) (d := d) e
    rw [List.flatMap_cons, List.findSome?_append, Option.or_eq_none_iff, ih,
      List.findSome?_eq_none_iff, hone, List.findSome?_cons, taken]
    cases p.failure? d e with
    | some failure => simp
    | none => simp [and_left_comm]

/-- The records that a run writes that an error ends. -/
theorem flatMap_record_raising (events : List Event) :
    (p.taken d (events.flatMap Event.raising)).flatMap p.record =
      p.recordsBeforeError (p.taken d events) := by
  induction events with
  | nil => rfl
  | cons e rest ih =>
    cases e with
    | result r => exact congrArg (p.record (.result r) ++ ·) ih
    | error _ | raised _ | refused _ => rfl
    | note n => cases n with
      | reported _ => exact ih
      | walking _ | loaded _ _ | tooDeep _ _ | loop _ | unmatched _ =>
        -- A note has no record, and a run can fail at it in the same way under both actions.
        change (p.taken d (.note _ :: rest.flatMap Event.raising)).flatMap p.record = _
        rw [taken, taken]
        split
        · rfl
        · exact ih

variable {target : Target} {start : Terminal}

/-- Both runs take the same events, but for what becomes of errors. -/
theorem exists_events_watch (ha : start.Accepts target) (hreport : p.options.onError = .report) :
    ∃ events, (p.watch target start).1.events = p.taken start.disk events ∧
      (p.failing.watch target start).1.events =
        p.taken start.disk (events.flatMap Event.raising) := by
  let w : Writer := { ownsFile := target != .standardOutput }
  let s : Watched := { running := { terminal := start } }
  obtain ⟨events, hmany, -⟩ := Walk.exists_handsOver_many p.options (watcher p target w) s p.roots
  have hwatch : p.watch target start = (watcher p target w).feed s events :=
    hmany (.refl _) s rfl
  have hended : p.failing.watch target start =
      (watcher p target w).feed s (events.flatMap Event.raising) := by
    have hoptions : p.options.withErrorAction .report = p.options := by
      rw [Options.withErrorAction, ← hreport]
    have hraise := Walk.many_raise p.options (watcher p target w) p.roots s
    rw [hoptions] at hraise
    rw [← Receiver.feed_ending, ← hmany (follows_ending p target w) s ⟨start.messages, rfl⟩]
    exact hraise
  refine ⟨events, ?_, ?_⟩
  · rw [hwatch]
    exact (told_feed_start ha p events).1
  · rw [hended]
    exact (told_feed_start ha p _).1

/-- **A run that an error ends** writes the records before the first error of the run that reports
errors, and it fails if that one fails or reports an error. -/
theorem events_watch_failing (ha : start.Accepts target) (hreport : p.options.onError = .report) :
    let events := (p.watch target start).1.events
    let ended := (p.failing.watch target start).1.events
    ended.flatMap p.record = p.recordsBeforeError events ∧
      (∀ e ∈ ended, e.error? = none) ∧
      (ended.findSome? (p.failure? start.disk) = none ↔
        events.findSome? (p.failure? start.disk) = none ∧ ∀ e ∈ events, e.error? = none) := by
  obtain ⟨events, hevents, hended⟩ := exists_events_watch ha hreport
  simp only [hevents, hended, findSome?_taken]
  refine ⟨flatMap_record_raising events, fun e he => ?_, findSome?_flatMap_raising events⟩
  obtain ⟨_, -, hraising⟩ := List.mem_flatMap.1 ((p.isPrefix_taken _ _).subset he)
  exact error?_of_mem_raising hraising

end Plan

/-! ## Settings -/

/-- The settings with which errors end a run. -/
def failing (s : Settings) : Settings := { s with failureMode := some .fail }

theorem validate_failing (s : Settings) : (failing s).validate = s.validate.map failing := by
  rw [Settings.validate, Settings.validate]
  by_cases hconflict : s.includeRuleFiles ∧ s.directory
  · rw [if_pos hconflict]
    exact if_pos hconflict
  · rw [if_neg hconflict]
    refine (if_neg hconflict).trans ?_
    by_cases hempty : s.paths = [] ∧ s.literalPaths = []
    · rw [if_pos hempty]
      exact if_pos hempty
    · rw [if_neg hempty]
      exact if_neg hempty

theorem planOf_failing (hmode : s.failureMode = some .report) :
    planOf (failing s) = (planOf s).map Plan.failing ∧
      ∀ p, planOf s = .ok p → p.options.onError = .report := by
  unfold planOf
  simp only [failing, hmode]
  by_cases hdepth : s.depth = some none
  · simp only [if_pos hdepth]
    refine ⟨rfl, fun p h => ?_⟩
    cases h
  · simp only [if_neg hdepth]
    refine ⟨rfl, fun p h => ?_⟩
    obtain rfl := Except.ok.inj h
    rfl

theorem lacking_failing (p : Plan) (patterns : List (Value Text)) :
    p.failing.lacking patterns = (p.lacking patterns).failing := by
  unfold Plan.lacking
  split <;> rfl

end Session

end TreeSieve
