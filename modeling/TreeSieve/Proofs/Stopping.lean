import TreeSieve.Proofs.Ending
import TreeSieve.Proofs.EventSequence

/-!
# Walks that are stopped early

A walk of which only a number of results is wanted is stopped in the middle: with rules pushed,
directories waiting and paths put aside. What has been seen of it by then is the shortest beginning
of the events of the whole walk that has so many results (`Walker.walkMany_stopped`), and nothing of
it is left for the next walk.

The whole walk and the stopped one take the same events (`Walk.exists_many_eq_feed_of_steady`), so
this is a matter of how many of them are collected (`Collected.feed_wanted`).
-/

namespace TreeSieve

/-! ## Beginnings with a number of results -/

/-- How many results there are among events. -/
def resultCount (events : List Event) : Nat := (events.filterMap Event.result?).length

/-- A list is the shortest beginning of events that has `n` results, or it has all the events if
there are fewer results. -/
structure StopsAfter (n : Nat) (events taken : List Event) : Prop where
  isPrefix : taken <+: events
  resultCount_eq : n ≤ resultCount events → resultCount taken = n
  shortest : ∀ other, other <+: events → resultCount other = n → taken <+: other
  eq_of_fewer : resultCount events < n → taken = events

/-- The events up to the result with a number, with it. -/
def untilResult : Nat → List Event → List Event
  | 0, _ => []
  | _ + 1, [] => []
  | n + 1, e :: rest => e :: untilResult (if e.result?.isSome then n else n + 1) rest

theorem resultCount_cons (e : Event) (rest : List Event) :
    resultCount (e :: rest) = resultCount rest + if e.result?.isSome then 1 else 0 := by
  cases h : e.result? <;> simp [resultCount, h]

theorem StopsAfter.nil (events : List Event) : StopsAfter 0 events [] :=
  ⟨List.nil_prefix, fun _ => rfl, fun _ _ _ => List.nil_prefix,
    fun h => absurd h (Nat.not_lt_zero _)⟩

/-- An event in front, which is one of the wanted results or not. -/
theorem StopsAfter.cons {n : Nat} {e : Event} {rest taken : List Event}
    (h : StopsAfter (if e.result?.isSome then n else n + 1) rest taken) :
    StopsAfter (n + 1) (e :: rest) (e :: taken) := by
  obtain ⟨hfront, hcount, hshortest, hfewer⟩ := h
  generalize hm : (if e.result?.isSome then n else n + 1) = m at hcount hshortest hfewer
  have hmore : ∀ events, resultCount (e :: events) + m = resultCount events + (n + 1) := by
    intro events
    rw [resultCount_cons, ← hm]
    split <;> omega
  refine ⟨(List.prefix_cons_inj e).2 hfront, fun hn => ?_, fun other hother hn => ?_,
    fun hn => ?_⟩
  · have hrest := hmore rest
    have htaken := hmore taken
    have := hcount (by omega)
    omega
  · cases other with
    | nil => exact absurd hn (Nat.succ_ne_zero n).symm
    | cons f other =>
      obtain ⟨rfl, hbelow⟩ := List.cons_prefix_cons.1 hother
      have hone := hmore other
      exact (List.prefix_cons_inj f).2 (hshortest other hbelow (by omega))
  · have hrest := hmore rest
    rw [hfewer (by omega)]

theorem stopsAfter_untilResult (n : Nat) (events : List Event) :
    StopsAfter n events (untilResult n events) := by
  induction events generalizing n with
  | nil =>
    cases n with
    | zero => exact .nil []
    | succ n =>
      exact ⟨List.prefix_rfl, fun h => absurd h (Nat.not_succ_le_zero n),
        fun _ _ _ => List.nil_prefix, fun _ => rfl⟩
  | cons e rest ih =>
    cases n with
    | zero => exact .nil _
    | succ n => exact (ih _).cons

/-! ## Collecting with a limit -/

/-- As long as results are wanted, what is collected ends with the last of them. -/
theorem Collected.feed_wanted {c : Collected} {n : Nat} (hw : c.wanted = some (n + 1))
    (events : List Event) : (receiver.feed c events).1.events =
      c.events ++ untilResult (n + 1) (untilFinal (shown events)) := by
  induction events generalizing c n with
  | nil => simp [Receiver.feed, shown, untilFinal, untilResult]
  | cons e rest ih =>
    rw [Receiver.feed, untilFinal_shown_cons]
    cases e with
    | note m => exact ih hw
    | error e =>
      have hrest := ih (c := { c with events := c.events ++ [.error e] }) hw
      simpa [receiver, add, shown, Event.isNote, Event.isFinal, untilResult, Event.result?]
        using hrest
    | result res =>
      have hadd : receiver.receive c (.result res) =
          ({ c with events := c.events ++ [.result res], wanted := some n }, n != 0) := by
        cases n <;> simp [receiver, add, hw]
      rw [hadd]
      cases n with
      | zero => simp [shown, Event.isNote, Event.isFinal, untilResult, Event.result?]
      | succ n =>
        have hrest :=
          ih (c := { c with events := c.events ++ [.result res], wanted := some (n + 1) }) rfl
        simpa [shown, Event.isNote, Event.isFinal, untilResult, Event.result?] using hrest
    | raised _ | refused _ =>
      cases n <;> simp [receiver, add, shown, Event.isNote, Event.isFinal, untilResult,
        Event.result?]

/-- The whole walk and the stopped ones collect from the same events. -/
theorem Walker.exists_walkMany_eq (w : Walker) (d : Disk) (roots : List Text) :
    ∃ events, ∀ limit, (w.walkMany d roots limit).1 = if limit = some 0 then [] else
      (Collected.receiver.feed { disk := d, wanted := limit } events).1.events := by
  obtain ⟨events, hmany⟩ := Walk.exists_many_eq_feed_of_steady w.options d (roots.map .given)
  refine ⟨events, fun limit => ?_⟩
  have hfed : Walk.many w.options Collected.receiver (roots.map .given)
      { disk := d, wanted := limit } = _ := hmany Collected.steady_receiver _ rfl
  rw [walkMany, remember, collect, hfed]

/-- The events of a walk with a limit are a beginning of those of the walk without one. -/
theorem Walker.walkMany_eq_untilResult (w : Walker) (d : Disk) (roots : List Text) (n : Nat) :
    (w.walkMany d roots (some n)).1 = untilResult n (w.walkMany d roots none).1 := by
  obtain ⟨events, hevents⟩ := w.exists_walkMany_eq d roots
  have hall := Collected.feed_untilFinal (c := { disk := d }) rfl events
  rw [hevents, hevents, if_neg (Option.some_ne_none 0).symm, hall, List.nil_append]
  cases n with
  | zero => rw [if_pos rfl, untilResult]
  | succ n =>
    rw [if_neg (by simp), Collected.feed_wanted rfl, List.nil_append]

/-- **Stopping early** sees the shortest beginning of the events that has the wanted results, with
the errors in it, and the walker goes on like a new one. -/
theorem Walker.walkMany_stopped (w : Walker) (d : Disk) (roots : List Text) (n : Nat) :
    StopsAfter n (w.walkMany d roots none).1 (w.walkMany d roots (some n)).1 ∧
    (w.walkMany d roots (some n)).2.errors =
      w.errors ++ (w.walkMany d roots (some n)).1.filterMap Event.error? ∧
    ∀ (d' : Disk) (roots' : List Text) (root : Text) (limit : Option Nat),
      ((w.walkMany d roots (some n)).2.walkMany d' roots' limit).1 =
        (Walker.walkMany { options := w.options } d' roots' limit).1 ∧
      ((w.walkMany d roots (some n)).2.walk d' root limit).1 =
        (Walker.walk { options := w.options } d' root limit).1 := by
  refine ⟨?_, rfl, fun _ _ _ _ => ⟨rfl, rfl⟩⟩
  rw [walkMany_eq_untilResult]
  exact stopsAfter_untilResult n _

end TreeSieve
