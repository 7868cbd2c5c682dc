import TreeSieve.Proofs.EventSequence
import TreeSieve.Proofs.WriterCalls
import TreeSieve.Session

/-!
# What a run writes

A run is watched here: the events that it takes are kept, and so are the attempts of its writer
(`Session.Plan.watch`). Watching changes nothing about the run (`Session.Plan.watch_eq_walk`).

As long as a walk goes on, a result adds its record to what is written, and no other event adds
anything (`Session.Wrote.receive`). So at the end of a walk that went on to its end, the records of
its events are what the target has taken (`Session.Plan.wrote_watch`).
-/

namespace TreeSieve

/-! ## Targets -/

namespace Terminal

/-- What a target holds, unless it is a device. -/
def content? (t : Terminal) : Target → Option (List UInt8)
  | .standardOutput => some t.output
  | .file location =>
    match t.disk.root.get? location with
    | some (.file content) => some content
    | _ => none

variable {t t' : Terminal} {target : Target} {bytes : List UInt8}

theorem put_eq_ok {n : Nat} (h : t.put target bytes = (t', .ok n)) :
    n = bytes.length ∧
      ∀ old, t.content? target = some old → t'.content? target = some (old ++ bytes) := by
  cases target with
  | standardOutput =>
    rw [put] at h
    split at h
    · cases (Prod.mk.inj h).2
    · obtain ⟨rfl, hn⟩ := Prod.mk.inj h
      exact ⟨(Except.ok.inj hn).symm, fun old hold => by rw [← Option.some.inj hold]; rfl⟩
  | file location =>
    simp only [put] at h
    cases happend : t.disk.append location bytes with
    | error fault =>
      rw [happend] at h
      cases (Prod.mk.inj h).2
    | ok disk =>
      rw [happend] at h
      obtain ⟨rfl, hn⟩ := Prod.mk.inj h
      refine ⟨(Except.ok.inj hn).symm, fun old hold => ?_⟩
      rw [content?] at hold ⊢
      split at hold
      · next content hfile =>
        obtain rfl := Option.some.inj hold
        simp only [Disk.append, hfile, Except.ok.injEq] at happend
        have hput : disk.root.get? location = some (.file (content ++ bytes)) := by
          rw [← happend]
          exact Disk.get?_overwrite hfile (content ++ bytes)
        simp only [hput]
      · cases hold

/-- Handing over bytes adds no names to the file system. -/
theorem names_put_subset (t : Terminal) (target : Target) (bytes : List UInt8) :
    (t.put target bytes).1.disk.root.names ⊆ t.disk.root.names := by
  cases target with
  | standardOutput =>
    rw [put]
    split <;> exact List.Subset.refl _
  | file location =>
    simp only [put]
    split
    · next disk happend => exact Disk.names_append_subset happend
    · exact List.Subset.refl _

theorem takes_sink (target : Target) : (sink target).Takes := by
  intro t bytes n hne hput
  have hn : n = bytes.length := (put_eq_ok (t := t) (Prod.ext rfl hput)).1
  have hlength := List.length_pos_of_ne_nil hne
  omega

/-- A target takes all bytes at once. -/
theorem deliverAll_sink (target : Target) (t : Terminal) (b : UInt8) (bytes : List UInt8) :
    (sink target).deliverAll t (b :: bytes) =
      ((t.put target (b :: bytes)).1, (t.put target (b :: bytes)).2.map fun _ => ()) := by
  rw [Sink.deliverAll, List.length_cons, Sink.deliver]
  cases hput : t.put target (b :: bytes) with
  | mk t' answer =>
    have hsink : (sink target).put t (b :: bytes) = (t', answer) := hput
    rw [hsink]
    cases answer with
    | error fault => rfl
    | ok n =>
      obtain rfl := (put_eq_ok hput).1
      simp only [List.drop_length]
      cases bytes.length <;> rfl

variable {w : Writer} {interrupted : Bool} {data : Text}

/-- **A write that succeeds** adds its text to what a target holds. -/
theorem content?_write (h : (w.write (sink target) interrupted t data).2 = .ok ())
    {old : List UInt8} (hold : t.content? target = some old) :
    (w.write (sink target) interrupted t data).1.content? target =
      some (old ++ Utf8.encode data) := by
  cases hw : w.closed with
  | true => simp [Writer.write_of_closed hw] at h
  | false =>
    cases interrupted with
    | true => simp [Writer.write_of_interrupted hw] at h
    | false =>
      rw [Writer.write_of_open hw] at h ⊢
      cases hdata : Utf8.encode data with
      | nil => simpa [Sink.deliverAll, Sink.deliver] using hold
      | cons b bytes =>
        rw [hdata, deliverAll_sink] at h
        rw [deliverAll_sink]
        cases hput : t.put target (b :: bytes) with
        | mk t' answer =>
          cases answer with
          | ok n => exact (put_eq_ok hput).2 old hold
          | error fault => simp [hput, Except.map, Except.mapError] at h

/-- What a write does to the terminal is one attempt to hand over its text, if anything. -/
theorem write_eq (w : Writer) (target : Target) (interrupted : Bool) (t : Terminal) (data : Text) :
    (w.write (sink target) interrupted t data).1 = t ∨
      (w.write (sink target) interrupted t data).1 = (t.put target (Utf8.encode data)).1 := by
  cases hw : w.closed with
  | true => simp [Writer.write_of_closed hw]
  | false =>
    cases interrupted with
    | true => simp [Writer.write_of_interrupted hw]
    | false =>
      rw [Writer.write_of_open hw]
      cases Utf8.encode data with
      | nil => exact Or.inl rfl
      | cons b bytes =>
        rw [deliverAll_sink]
        exact Or.inr rfl

theorem names_write_subset (w : Writer) (target : Target) (interrupted : Bool) (t : Terminal)
    (data : Text) :
    (w.write (sink target) interrupted t data).1.disk.root.names ⊆ t.disk.root.names := by
  rcases write_eq w target interrupted t data with h | h
  · rw [h]
    exact List.Subset.refl _
  · rw [h]
    exact t.names_put_subset target _

/-- Standard output is no part of the file system. -/
theorem disk_write_standardOutput (w : Writer) (interrupted : Bool) (t : Terminal) (data : Text) :
    (w.write (sink .standardOutput) interrupted t data).1.disk = t.disk := by
  rcases write_eq w .standardOutput interrupted t data with h | h
  · rw [h]
  · rw [h, put]
    split <;> rfl

end Terminal

theorem Event.eq_result {e : Event} {r : Result} (h : e.result? = some r) : e = .result r := by
  cases e with
  | result _ => exact congrArg _ (Option.some.inj h)
  | error _ | note _ | raised _ | refused _ => cases h

/-- Where a receiver goes on behind the last event, no event was final. -/
theorem Receiver.isFinal_of_feed {σ : Type} {r : Receiver σ} {s : σ} {events : List Event}
    (h : (r.feed s events).2 = true) : ∀ e ∈ events, e.isFinal = false := by
  induction events generalizing s with
  | nil => simp
  | cons e rest ih =>
    rw [feed] at h
    split at h
    · split at h
      · cases h
      · next hfinal => exact List.forall_mem_cons.2 ⟨by simpa using hfinal, ih h⟩
    · cases h

namespace Session

/-! ## One event -/

/-- The record of an event: that of a result, with what ends it. -/
def Plan.record (p : Plan) : Event → List UInt8
  | .result result => Utf8.encode (result.path ++ [p.terminator])
  | _ => []

namespace Running

variable (p : Plan) (target : Target) (w : Writer) (r : Running)

/-- What is written for a result. -/
theorem receive_result (result : Result) :
    (receive p target w r (.result result)).1.terminal =
      (w.write (Terminal.sink target) r.terminal.signals.any r.terminal
        (result.path ++ [p.terminator])).1 ∧
    ((receive p target w r (.result result)).2 = true ↔
      (w.write (Terminal.sink target) r.terminal.signals.any r.terminal
        (result.path ++ [p.terminator])).2 = .ok ()) := by
  simp only [receive]
  split <;> next hwrite => simp [hwrite]

/-- Only a result is written to the target. Other events at most show messages. -/
theorem receive_of_not_result {e : Event} (h : e.result? = none) :
    ∃ messages, (receive p target w r e).1.terminal = { r.terminal with messages } := by
  cases e with
  | result result => cases h
  | error e => exact ⟨_, rfl⟩
  | note n =>
    simp only [receive]
    cases p.verbose
    all_goals
      cases p.stumbles _ n <;> exact ⟨_, rfl⟩
  | raised _ | refused _ => exact ⟨_, rfl⟩

/-- During the walk the disk changes at most by what is written for a result. -/
theorem disk_receive (e : Event) : ((receive p target w r e).1.terminal.disk = r.terminal.disk) ∨
    ∃ data, (receive p target w r e).1.terminal.disk =
      (w.write (Terminal.sink target) r.terminal.signals.any r.terminal data).1.disk := by
  cases hresult : e.result? with
  | some result =>
    obtain rfl := Event.eq_result hresult
    exact Or.inr ⟨_, congrArg _ (receive_result p target w r result).1⟩
  | none =>
    obtain ⟨messages, hterminal⟩ := receive_of_not_result p target w r hresult
    exact Or.inl (by rw [hterminal])

/-- A run adds no names to the file system during the walk. -/
theorem keepsNames_receiver (ns : List Text) : (receiver p target w).KeepsNames ns := by
  intro r e hr
  show (receive p target w r e).1.terminal.disk.root.names ⊆ ns
  rcases disk_receive p target w r e with h | ⟨data, h⟩
  · exact h ▸ hr
  · exact h ▸ List.Subset.trans (Terminal.names_write_subset w target _ _ data) hr

/-- The attempts of the writer that an event makes it make. -/
def attempts : Event → List Attempt
  | .result result =>
    (w.write (Terminal.sink target).logged r.terminal.signals.any (r.terminal, [])
      (result.path ++ [p.terminator])).1.2
  | _ => []

end Running

/-! ## Watching -/

/-- A run that is watched, with the events that it has taken and the attempts of its writer. -/
structure Watched where
  running : Running
  events : List Event := []
  attempts : List Attempt := []

namespace Watched

/-- The bytes that the target has taken. -/
def taken (s : Watched) : List UInt8 := s.attempts.flatMap Attempt.taken

/-- The paths of the results, in order. -/
def paths (s : Watched) : List Text := (s.events.filterMap Event.result?).map Result.path

theorem mem_paths {s : Watched} {path : Text} :
    path ∈ s.paths ↔ ∃ result, .result result ∈ s.events ∧ result.path = path := by
  rw [paths, List.mem_map]
  refine exists_congr fun result => and_congr_left' ?_
  rw [List.mem_filterMap]
  constructor
  · rintro ⟨e, he, hresult⟩
    exact Event.eq_result hresult ▸ he
  · exact fun he => ⟨_, he, rfl⟩

/-- The records of the events are those of the paths. -/
theorem flatMap_record (p : Plan) (s : Watched) : s.events.flatMap p.record =
    s.paths.flatMap fun path => Utf8.encode (path ++ [p.terminator]) := by
  rw [paths]
  induction s.events with
  | nil => rfl
  | cons e rest ih =>
    rw [List.flatMap_cons, ih]
    cases e <;> rfl

end Watched

/-- The receiver of a run that is watched. -/
def watcher (p : Plan) (target : Target) (w : Writer) : Receiver Watched where
  disk s := s.running.terminal.disk
  receive s e :=
    ({ running := (Running.receive p target w s.running e).1
       events := s.events ++ [e]
       attempts := s.attempts ++ Running.attempts p target w s.running e },
      (Running.receive p target w s.running e).2)

/-- What is written while events are taken: their records, one after the other. -/
structure Wrote (p : Plan) (target : Target) (s s' : Watched) (events : List Event) : Prop where
  events_eq : s'.events = s.events ++ events
  taken_eq : s'.taken = s.taken ++ events.flatMap p.record
  content_eq : ∀ old, s.running.terminal.content? target = some old →
    s'.running.terminal.content? target = some (old ++ events.flatMap p.record)

variable {p : Plan} {target : Target} {w : Writer}

theorem Wrote.refl (s : Watched) : Wrote p target s s [] :=
  ⟨by simp, by simp, by simp⟩

theorem Wrote.trans {s s' s'' : Watched} {events more : List Event}
    (h : Wrote p target s s' events) (hmore : Wrote p target s' s'' more) :
    Wrote p target s s'' (events ++ more) where
  events_eq := by rw [hmore.events_eq, h.events_eq, List.append_assoc]
  taken_eq := by rw [hmore.taken_eq, h.taken_eq, List.flatMap_append, List.append_assoc]
  content_eq old hold := by
    rw [hmore.content_eq _ (h.content_eq old hold), List.flatMap_append, List.append_assoc]

/-- An event that is no result writes nothing. -/
theorem Wrote.receive_of_not_result (s : Watched) {e : Event} (h : e.result? = none) :
    Wrote p target s ((watcher p target w).receive s e).1 [e] := by
  obtain ⟨messages, hterminal⟩ := Running.receive_of_not_result p target w s.running h
  have hrecord : p.record e = [] ∧ Running.attempts p target w s.running e = [] := by
    cases e with
    | result result => cases h
    | error _ | note _ | raised _ | refused _ => exact ⟨rfl, rfl⟩
  refine ⟨rfl, ?_, fun old hold => ?_⟩
  · simp [Watched.taken, watcher, hrecord]
  · have hsame : (Running.receive p target w s.running e).1.terminal.content? target =
        s.running.terminal.content? target := by
      rw [hterminal]
      rfl
    simpa [watcher, hrecord, hsame] using hold

/-- **One event** adds its record, if the run goes on. -/
theorem Wrote.receive {s : Watched} {e : Event}
    (h : ((watcher p target w).receive s e).2 = true) :
    Wrote p target s ((watcher p target w).receive s e).1 [e] := by
  cases hresult : e.result? with
  | none => exact receive_of_not_result s hresult
  | some result =>
    obtain rfl := Event.eq_result hresult
    obtain ⟨hterminal, hok⟩ := Running.receive_result p target w s.running result
    have hwritten := hok.1 h
    have hgoes := Writer.goes_call (Terminal.takes_sink target) w s.running.terminal
      (.write (result.path ++ [p.terminator]) s.running.terminal.signals.any)
    have htaken := hgoes.isFaithful.2.2.1 hwritten
    refine ⟨rfl, ?_, fun old hold => ?_⟩
    · rw [List.flatMap_singleton, Plan.record, ← htaken]
      exact List.flatMap_append
    · rw [List.flatMap_singleton, Plan.record, ← Terminal.content?_write hwritten hold,
        ← hterminal]
      rfl

theorem Wrote.feed {s : Watched} {events : List Event}
    (h : ((watcher p target w).feed s events).2 = true) :
    Wrote p target s ((watcher p target w).feed s events).1 events := by
  induction events generalizing s with
  | nil => exact .refl s
  | cons e rest ih =>
    have hfirst : ((watcher p target w).receive s e).2 = true → _ := Wrote.receive
    rw [Receiver.feed] at h ⊢
    cases hreceive : (watcher p target w).receive s e with
    | mk s' goesOn =>
      rw [hreceive] at h hfirst
      cases goesOn with
      | false => cases h
      | true =>
        cases hfinal : e.isFinal with
        | true =>
          rw [hfinal] at h
          cases h
        | false =>
          rw [hfinal] at h
          exact (hfirst rfl).trans (ih h)

/-- On the way to standard output the file system stays as it is. -/
theorem steady_watcher (p : Plan) (w : Writer) : (watcher p .standardOutput w).Steady := by
  intro s e
  rcases Running.disk_receive p .standardOutput w s.running e with h | ⟨data, h⟩
  · exact h
  · exact h.trans (Terminal.disk_write_standardOutput w _ _ data)

theorem follows_watcher (p : Plan) (target : Target) (w : Writer) :
    (watcher p target w).Follows (Running.receiver p target w) fun s r => s.running = r where
  disk h := congrArg (fun r : Running => r.terminal.disk) h
  receive := by
    rintro s _ e rfl h
    exact ⟨h, rfl⟩

theorem feed_watcher (s : Watched) (events : List Event) :
    ((watcher p target w).feed s events).1.running =
        ((Running.receiver p target w).feed s.running events).1 ∧
      ((watcher p target w).feed s events).2 =
        ((Running.receiver p target w).feed s.running events).2 := by
  induction events generalizing s with
  | nil => exact ⟨rfl, rfl⟩
  | cons e rest ih =>
    have hreceive : (watcher p target w).receive s e =
      (_, ((Running.receiver p target w).receive s.running e).2) := rfl
    rw [Receiver.feed, Receiver.feed, hreceive]
    cases hrunning : (Running.receiver p target w).receive s.running e with
    | mk r goesOn =>
      have hr : (Running.receive p target w s.running e).1 = r := congrArg Prod.fst hrunning
      cases goesOn with
      | false => exact ⟨hr, rfl⟩
      | true =>
        cases e.isFinal with
        | true => exact ⟨hr, rfl⟩
        | false => exact hr ▸ ih _

/-! ## Walks -/

/-- The walk of a plan, watched. -/
def Plan.watch (p : Plan) (target : Target) (t : Terminal) : Watched × Bool :=
  let w : Writer := { ownsFile := target != .standardOutput }
  Walk.many p.options (watcher p target w) p.roots { running := { terminal := t } }

namespace Plan

variable (p : Plan) (target : Target) (t : Terminal)

/-- A walk and the walk that is watched take the same events, which show results below roots. -/
theorem exists_walk_eq_feed : ∃ events,
    p.walk target t = (Running.receiver p target { ownsFile := target != .standardOutput }).feed
      { terminal := t } events ∧
    p.watch target t = (watcher p target { ownsFile := target != .standardOutput }).feed
      { running := { terminal := t } } events ∧
    ∀ P, Path.Piecewise P → (∀ name ∈ t.disk.root.names, P name) →
      (∀ argument ∈ p.roots, P argument.text) →
      Walk.Shows P p.options t.disk.root.names events := by
  obtain ⟨events, hmany, hshows⟩ := Walk.exists_handsOver_many p.options
    (Running.receiver p target { ownsFile := target != .standardOutput }) { terminal := t } p.roots
  refine ⟨events, hmany (.refl _) _ rfl, hmany (follows_watcher p target _) _ rfl,
    fun P hP hnames hroots => ?_⟩
  exact hshows P _ hP hnames (Running.keepsNames_receiver p target _ _) (List.Subset.refl _) hroots

/-- **Watching** changes nothing. -/
theorem watch_eq_walk : (p.watch target t).1.running = (p.walk target t).1 ∧
    (p.watch target t).2 = (p.walk target t).2 := by
  obtain ⟨events, hwalk, hwatch, -⟩ := p.exists_walk_eq_feed target t
  rw [hwalk, hwatch]
  exact feed_watcher _ events

variable {p target t}

/-- **A walk that went on to its end** has written the records of its events, and these show results
below roots. -/
theorem wrote_watch (h : (p.walk target t).2 = true) :
    Wrote p target { running := { terminal := t } } (p.watch target t).1
        (p.watch target t).1.events ∧
    ∀ P, Path.Piecewise P → (∀ name ∈ t.disk.root.names, P name) →
      (∀ argument ∈ p.roots, P argument.text) →
      Walk.Shows P p.options t.disk.root.names (p.watch target t).1.events := by
  obtain ⟨events, -, hwatch, hshows⟩ := p.exists_walk_eq_feed target t
  rw [← (p.watch_eq_walk target t).2, hwatch] at h
  have hwrote := Wrote.feed h
  have hevents : (p.watch target t).1.events = events := by
    rw [hwatch, hwrote.events_eq]
    rfl
  rw [hevents, hwatch]
  exact ⟨hwrote, hshows⟩

/-- On standard output the results of a walk that went on to its end are those that the walk by
itself has. -/
theorem shown_watch (h : (p.walk .standardOutput t).2 = true) :
    shown (p.watch .standardOutput t).1.events =
      (Walk.many p.options Collected.receiver p.roots { disk := t.disk }).1.events := by
  -- Neither of the two receivers touches the file system, so they take the same events.
  obtain ⟨events, hmany⟩ := Walk.exists_many_eq_feed_of_steady p.options t.disk p.roots
  have hwatch : p.watch .standardOutput t = _ := hmany (steady_watcher p _) _ rfl
  rw [← (p.watch_eq_walk .standardOutput t).2, hwatch] at h
  have hnone : ∀ e ∈ shown events, e.isFinal = false :=
    fun e he => Receiver.isFinal_of_feed h e (List.mem_of_mem_filter he)
  rw [hmany Collected.steady_receiver _ rfl, Collected.feed_receiver rfl hnone, hwatch,
    (Wrote.feed h).events_eq]
  rfl

end Plan

end Session

end TreeSieve
