import TreeSieve.Proofs.RunWrites
import TreeSieve.Proofs.WrittenFile

/-!
# What a run tells of the events that it takes

A run to a target that takes everything (`Terminal.Accepts`) takes the events of its walk up to the
first one that it fails at (`Session.Plan.taken`). Each of them is told at once: a result as a
record for the target, a reported error as a message on standard error, and a note in the log
(`Session.Told.receive`). So what a run has told is known from the events that it has taken
(`Session.told_feed`).
-/

namespace TreeSieve

/-! ## Targets that take everything -/

namespace Terminal

/-- No signal has been received, and a target takes whatever it is given. -/
structure Accepts (t : Terminal) (target : Target) : Prop where
  quiet : t.signals.any = false
  takes : ∀ bytes, (t.put target bytes).2 = .ok bytes.length

/-- Nothing has changed but the target and what standard error has taken. -/
structure Writes (t : Terminal) (target : Target) (t' : Terminal) : Prop where
  signals_eq : t'.signals = t.signals
  readerGone_eq : t'.readerGone = t.readerGone
  output_eq : target ≠ .standardOutput → t'.output = t.output
  disk_eq : target = .standardOutput → t'.disk = t.disk
  alike : ∀ l, target = .file l → t.disk.AlikeBut l t'.disk

/-- What standard error takes for a line. -/
def lineBytes (line : Text) : List UInt8 := Utf8.encode (line.flatMap Sym.visible ++ [.lineFeed])

theorem say_messages (t : Terminal) (line : Text) :
    (t.say line).messages = t.messages ++ lineBytes line := rfl

variable {t t' : Terminal} {target : Target}

namespace Writes

theorem of_messages (t : Terminal) (target : Target) (messages : List UInt8) :
    t.Writes target { t with messages } :=
  ⟨rfl, rfl, fun _ => rfl, fun _ => rfl, fun _ _ => .same⟩

theorem refl (t : Terminal) (target : Target) : t.Writes target t :=
  .of_messages t target t.messages

theorem trans {t'' : Terminal} (h : t.Writes target t') (h' : t'.Writes target t'') :
    t.Writes target t'' where
  signals_eq := h'.signals_eq.trans h.signals_eq
  readerGone_eq := h'.readerGone_eq.trans h.readerGone_eq
  output_eq hne := (h'.output_eq hne).trans (h.output_eq hne)
  disk_eq heq := (h'.disk_eq heq).trans (h.disk_eq heq)
  alike l hl := (h.alike l hl).trans (h'.alike l hl)

theorem resembles (h : t.Writes target t') : t.disk.Resembles t'.disk := by
  cases htarget : target with
  | standardOutput => exact h.disk_eq htarget ▸ .refl _
  | file l => exact (h.alike l htarget).resembles

/-- A target that takes everything goes on taking it. -/
theorem accepts (h : t.Writes target t') (ha : t.Accepts target) : t'.Accepts target := by
  refine ⟨h.signals_eq ▸ ha.quiet, fun bytes => ?_⟩
  have htakes := ha.takes bytes
  cases htarget : target with
  | standardOutput =>
    rw [htarget, put] at htakes
    rw [put, h.readerGone_eq]
    split at htakes
    · cases htakes
    · next hreader => rw [if_neg hreader]
  | file l =>
    have halike := h.alike l htarget
    rw [htarget] at htakes
    simp only [put] at htakes ⊢
    generalize hdisk : t'.disk = d' at halike
    cases halike with
    | same =>
      cases happend : t.disk.append l bytes with
      | error fault =>
        rw [happend] at htakes
        cases htakes
      | ok disk => rfl
    | overwritten hfile old =>
      simp only [Disk.append, Disk.get?_overwrite hfile]

end Writes

theorem Accepts.writes_put (h : t.Accepts target) (bytes : List UInt8) :
    t.Writes target (t.put target bytes).1 ∧ (t.put target bytes).1.messages = t.messages := by
  have htakes := h.takes bytes
  cases target with
  | standardOutput =>
    rw [put] at htakes ⊢
    split at htakes
    · cases htakes
    · next hreader =>
      rw [if_neg hreader]
      exact ⟨⟨rfl, rfl, fun hne => absurd rfl hne, fun _ => rfl,
        fun _ hl => (by cases hl)⟩, rfl⟩
  | file l =>
    simp only [put] at htakes ⊢
    cases happend : t.disk.append l bytes with
    | error fault =>
      rw [happend] at htakes
      cases htakes
    | ok disk =>
      refine ⟨⟨rfl, rfl, fun _ => rfl, fun hl => (by cases hl), fun m hm => ?_⟩, rfl⟩
      cases hm
      exact .of_append happend

/-- **A write** to a target that takes everything succeeds. -/
theorem Accepts.write (h : t.Accepts target) {w : Writer} (hw : w.closed = false) (data : Text) :
    (w.write (sink target) t.signals.any t data).2 = .ok () ∧
      t.Writes target (w.write (sink target) t.signals.any t data).1 ∧
      (w.write (sink target) t.signals.any t data).1.messages = t.messages := by
  rw [h.quiet, Writer.write_of_open hw]
  cases Utf8.encode data with
  | nil => exact ⟨rfl, .refl t target, rfl⟩
  | cons b bytes =>
    rw [deliverAll_sink, h.takes]
    exact ⟨rfl, h.writes_put (b :: bytes)⟩

end Terminal

namespace Session

/-! ## Failures -/

/-- The failure that an event brings with it. -/
def Failure.of? : Event → Option Failure
  | .raised e => some (.walk e)
  | .refused fault => some (.system fault none)
  | _ => none

namespace Plan

/-- The failure of a run that takes an event. -/
def failure? (p : Plan) (d : Disk) : Event → Option Failure
  | .note n => if p.stumbles d n then some .noPattern else none
  | e => Failure.of? e

/-- The events up to the first one that a run fails at, with it. -/
def taken (p : Plan) (d : Disk) : List Event → List Event
  | [] => []
  | e :: rest => if (p.failure? d e).isSome then [e] else e :: taken p d rest

/-- What standard error takes for an event. -/
def message (p : Plan) : Event → List UInt8
  | .error e => Terminal.lineBytes ("Error: " ++ e.message)
  | .note n =>
    if p.verbose then Terminal.lineBytes ("DEBUG: " ++ n.origin ++ ": " ++ n.message) else []
  | _ => []

theorem stumbles_resembles (p : Plan) {d d' : Disk} (h : d.Resembles d') :
    p.stumbles d' = p.stumbles d := by
  funext n
  cases n with
  | walking root => simp only [stumbles, h.isDirectory]
  | _ => rfl

theorem failure?_resembles (p : Plan) {d d' : Disk} (h : d.Resembles d') :
    p.failure? d' = p.failure? d := by
  funext e
  cases e with
  | note n => rw [failure?, failure?, p.stumbles_resembles h]
  | result _ | error _ | raised _ | refused _ => rfl

theorem isFinal_of_failure? {p : Plan} {d : Disk} {e : Event} (h : p.failure? d e = none) :
    e.isFinal = false := by
  cases e with
  | raised _ | refused _ => cases h
  | result _ | error _ | note _ => rfl

end Plan

/-! ## One event -/

/-- What a run tells while it takes events: their records go to the target and their messages to
standard error, and a reported error is remembered. -/
structure Told (p : Plan) (target : Target) (s s' : Watched) (events : List Event) : Prop
    extends Wrote p target s s' events where
  writes : s.running.terminal.Writes target s'.running.terminal
  messages_eq : s'.running.terminal.messages =
    s.running.terminal.messages ++ events.flatMap p.message
  hadErrors_eq : s'.running.hadErrors =
    (s.running.hadErrors || events.any fun e => e.error?.isSome)

namespace Told

variable {p : Plan} {target : Target} {s s' s'' : Watched}

theorem refl (p : Plan) (target : Target) (s : Watched) : Told p target s s [] where
  toWrote := .refl s
  writes := .refl _ _
  messages_eq := by simp
  hadErrors_eq := by simp

theorem trans {events more : List Event} (h : Told p target s s' events)
    (hmore : Told p target s' s'' more) : Told p target s s'' (events ++ more) where
  toWrote := h.toWrote.trans hmore.toWrote
  writes := h.writes.trans hmore.writes
  messages_eq := by
    rw [hmore.messages_eq, h.messages_eq, List.flatMap_append, List.append_assoc]
  hadErrors_eq := by
    rw [hmore.hadErrors_eq, h.hadErrors_eq, List.any_append, Bool.or_assoc]

variable {w : Writer}

theorem of_receive {e : Event} {r : Running} {goesOn : Bool}
    (hreceive : Running.receive p target w s.running e = (r, goesOn))
    (hwrote : Wrote p target s ((watcher p target w).receive s e).1 [e])
    (hwrites : s.running.terminal.Writes target r.terminal)
    (hmessages : r.terminal.messages = s.running.terminal.messages ++ p.message e)
    (herrors : r.hadErrors = (s.running.hadErrors || e.error?.isSome)) :
    Told p target s ((watcher p target w).receive s e).1 [e] := by
  have hrunning : ((watcher p target w).receive s e).1.running = r := congrArg Prod.fst hreceive
  refine ⟨hwrote, ?_, ?_, ?_⟩
  · rw [hrunning]
    exact hwrites
  · rw [hrunning, hmessages, List.flatMap_singleton]
  · rw [hrunning, herrors, List.any_cons, List.any_nil, Bool.or_false]

variable (hw : w.closed = false) (ha : s.running.terminal.Accepts target)

include hw ha

/-- **One event** is told at once, and the run goes on unless it fails at it. -/
theorem receive (e : Event) :
    Told p target s ((watcher p target w).receive s e).1 [e] ∧
      ((watcher p target w).receive s e).1.running.failure =
        (p.failure? s.running.terminal.disk e).or s.running.failure ∧
      ((watcher p target w).receive s e).2 = (p.failure? s.running.terminal.disk e).isNone := by
  have hplain : e.result? = none → Wrote p target s ((watcher p target w).receive s e).1 [e] :=
    Wrote.receive_of_not_result s
  cases e with
  | result result =>
    obtain ⟨hok, hwrites, hmessages⟩ := ha.write hw (result.path ++ [p.terminator])
    have hreceive : Running.receive p target w s.running (.result result) =
        ({ s.running with terminal := (w.write (Terminal.sink target)
          s.running.terminal.signals.any s.running.terminal (result.path ++ [p.terminator])).1 },
          true) := by
      simp only [Running.receive]
      split <;> next hwrite => simp [hwrite] at hok ⊢
    refine ⟨of_receive hreceive (Wrote.receive (congrArg Prod.snd hreceive)) hwrites ?_ ?_, ?_, ?_⟩
    · simpa [Plan.message] using hmessages
    · simp [Event.error?]
    · exact congrArg (fun x => x.1.failure) hreceive
    · exact congrArg Prod.snd hreceive
  | error e =>
    exact ⟨of_receive rfl (hplain rfl) (.of_messages _ _ _) rfl (by simp [Event.error?]), rfl, rfl⟩
  | note n =>
    let r := if p.verbose then { s.running with terminal := s.running.terminal.log n }
      else s.running
    obtain ⟨hterminal, herrors, hfailure⟩ : r.terminal =
        { s.running.terminal with messages := s.running.terminal.messages ++ p.message (.note n) } ∧
        r.hadErrors = s.running.hadErrors ∧ r.failure = s.running.failure := by
      simp only [r, Plan.message]
      cases p.verbose with
      | true => exact ⟨rfl, rfl, rfl⟩
      | false => simp
    have hreceive : Running.receive p target w s.running (.note n) =
        ({ r with failure := (p.failure? s.running.terminal.disk (.note n)).or r.failure },
          (p.failure? s.running.terminal.disk (.note n)).isNone) := by
      have hdisk : r.terminal.disk = s.running.terminal.disk := by rw [hterminal]
      change (if p.stumbles r.terminal.disk n then _ else _) = _
      rw [hdisk, Plan.failure?]
      cases p.stumbles s.running.terminal.disk n <;> rfl
    refine ⟨of_receive hreceive (hplain rfl) ?_ ?_ ?_, ?_, congrArg Prod.snd hreceive⟩
    · exact hterminal ▸ .of_messages _ _ _
    · exact congrArg Terminal.messages hterminal
    · simpa [Event.error?] using herrors
    · rw [← hfailure]
      exact congrArg (fun x => x.1.failure) hreceive
  | raised e =>
    exact ⟨of_receive rfl (hplain rfl) (.refl _ _) (by simp [Plan.message])
      (by simp [Event.error?]), rfl, rfl⟩
  | refused fault =>
    exact ⟨of_receive rfl (hplain rfl) (.refl _ _) (by simp [Plan.message])
      (by simp [Event.error?]), rfl, rfl⟩

end Told

/-! ## All events -/

/-- **What a run has told** is known from the events that it has taken: those up to the first one
that it fails at. -/
theorem told_feed (p : Plan) (target : Target) {w : Writer} (hw : w.closed = false) {d : Disk}
    {s : Watched} (ha : s.running.terminal.Accepts target)
    (hd : d.Resembles s.running.terminal.disk) (events : List Event) :
    Told p target s ((watcher p target w).feed s events).1 (p.taken d events) ∧
      ((watcher p target w).feed s events).1.running.failure =
        (events.findSome? (p.failure? d)).or s.running.failure ∧
      ((watcher p target w).feed s events).2 = (events.findSome? (p.failure? d)).isNone := by
  induction events generalizing s with
  | nil => exact ⟨.refl p target s, rfl, rfl⟩
  | cons e rest ih =>
    obtain ⟨htold, hfailure, hgoes⟩ := Told.receive (p := p) hw ha e
    rw [p.failure?_resembles hd] at hfailure hgoes
    rw [Receiver.feed, Plan.taken]
    cases hreceive : (watcher p target w).receive s e with
    | mk s' goesOn =>
      rw [hreceive] at htold hfailure hgoes
      cases hfails : p.failure? d e with
      | some failure =>
        rw [hfails] at hfailure hgoes
        obtain rfl : goesOn = false := hgoes
        simpa [hfails] using ⟨htold, hfailure⟩
      | none =>
        rw [hfails] at hfailure hgoes
        obtain rfl : goesOn = true := hgoes
        obtain ⟨hrest, hlast, hends⟩ :=
          ih (htold.writes.accepts ha) (hd.trans htold.writes.resembles)
        rw [hfailure] at hlast
        simpa [hfails, Plan.isFinal_of_failure? hfails] using ⟨htold.trans hrest, hlast, hends⟩

/-! ## Watched runs -/

namespace Plan

theorem isPrefix_taken (p : Plan) (d : Disk) (events : List Event) :
    p.taken d events <+: events := by
  induction events with
  | nil => exact List.prefix_rfl
  | cons e rest ih =>
    rw [taken]
    split
    · exact ⟨rest, rfl⟩
    · exact (List.prefix_cons_inj e).2 ih

theorem findSome?_taken (p : Plan) (d : Disk) (events : List Event) :
    (p.taken d events).findSome? (p.failure? d) = events.findSome? (p.failure? d) := by
  induction events with
  | nil => rfl
  | cons e rest ih =>
    rw [taken]
    cases hfails : p.failure? d e with
    | some failure => simp [hfails]
    | none => simp [hfails, ih]

variable {target : Target} {start : Terminal} (ha : start.Accepts target)

include ha

/-- What a run has told after events from its start on, and whether it has failed. -/
theorem told_feed_start (p : Plan) (events : List Event) :
    let after := (watcher p target { ownsFile := target != .standardOutput }).feed
      { running := { terminal := start } } events
    after.1.events = p.taken start.disk events ∧
      Told p target { running := { terminal := start } } after.1 after.1.events ∧
      after.1.running.failure = after.1.events.findSome? (p.failure? start.disk) ∧
      after.2 = (after.1.events.findSome? (p.failure? start.disk)).isNone := by
  intro after
  have hopen : ({ ownsFile := target != .standardOutput } : Writer).closed = false := rfl
  have hstart :
      ({ running := { terminal := start } } : Watched).running.terminal.Accepts target := ha
  obtain ⟨htold, hfailure, hends⟩ := told_feed p target hopen hstart (.refl start.disk) events
  have hevents : after.1.events = p.taken start.disk events := htold.events_eq
  rw [hevents, findSome?_taken]
  exact ⟨rfl, htold, hfailure.trans (Option.or_none ..), hends⟩

/-- What a run has told when its walk is over, and whether it has failed. -/
theorem told_watch (p : Plan) :
    Told p target { running := { terminal := start } } (p.watch target start).1
        (p.watch target start).1.events ∧
      (p.watch target start).1.running.failure =
        (p.watch target start).1.events.findSome? (p.failure? start.disk) ∧
      (p.watch target start).2 =
        ((p.watch target start).1.events.findSome? (p.failure? start.disk)).isNone := by
  obtain ⟨events, -, hwatch, -⟩ := p.exists_walk_eq_feed target start
  rw [hwatch]
  exact (told_feed_start ha p events).2

end Plan

end Session

end TreeSieve
