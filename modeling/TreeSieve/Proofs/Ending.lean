import TreeSieve.Proofs.Delivery

/-!
# Walks that an error ends

Where errors end a walk, the events that are collected are those of the recursion up to the first
error, with it (`Walker.walk_eq_untilFinal`). Where errors are reported no event is final, and that
is all of them.
-/

namespace TreeSieve

/-- The events up to the first one that ends a walk, with it. -/
def untilFinal : List Event → List Event
  | [] => []
  | e :: rest => if e.isFinal then [e] else e :: untilFinal rest

theorem isPrefix_untilFinal (events : List Event) : untilFinal events <+: events := by
  induction events with
  | nil => exact List.prefix_rfl
  | cons e rest ih =>
    rw [untilFinal]
    split
    · exact ⟨rest, rfl⟩
    · exact (List.prefix_cons_inj e).2 ih

theorem untilFinal_append {es : List Event} (h : ∀ e ∈ es, e.isFinal = false) (fs : List Event) :
    untilFinal (es ++ fs) = es ++ untilFinal fs := by
  induction es with
  | nil => rfl
  | cons e rest ih =>
    obtain ⟨he, hrest⟩ := List.forall_mem_cons.1 h
    rw [List.cons_append, untilFinal, he, if_neg Bool.false_ne_true, ih hrest, List.cons_append]

/-- Lists of events that are made from one list end at the same element of it. -/
theorem untilFinal_map {α : Type} {f g : α → Event} (h : ∀ a, (f a).isFinal = (g a).isFinal)
    (as : List α) : ∃ bs : List α, bs <+: as ∧ untilFinal (as.map f) = bs.map f ∧
      untilFinal (as.map g) = bs.map g := by
  induction as with
  | nil => exact ⟨[], List.prefix_rfl, rfl, rfl⟩
  | cons a as ih =>
    obtain ⟨bs, hbs, hf, hg⟩ := ih
    rw [List.map_cons, List.map_cons, untilFinal, untilFinal, h a]
    split
    · exact ⟨[a], ⟨as, rfl⟩, rfl, rfl⟩
    · exact ⟨a :: bs, (List.prefix_cons_inj a).2 hbs, by rw [hf, List.map_cons],
        by rw [hg, List.map_cons]⟩

theorem untilFinal_shown_cons (e : Event) (rest : List Event) :
    untilFinal (shown (e :: rest)) =
      shown [e] ++ if e.isFinal then [] else untilFinal (shown rest) := by
  have hsplit : shown (e :: rest) = shown [e] ++ shown rest := shown_append [e] rest
  rw [hsplit]
  cases e <;> rfl

/-- Without a limit, what is collected ends with the first final event. -/
theorem Collected.feed_untilFinal {c : Collected} (hw : c.wanted = none) (events : List Event) :
    (receiver.feed c events).1 = { c with events := c.events ++ untilFinal (shown events) } := by
  induction events generalizing c with
  | nil => simp [Receiver.feed, untilFinal]
  | cons e rest ih =>
    have hadd : receiver.receive c e = _ := add_eq hw e
    rw [Receiver.feed, hadd, untilFinal_shown_cons, ← List.append_assoc]
    cases hfinal : e.isFinal with
    | true => simp
    | false => simpa using ih (c := { c with events := c.events ++ shown [e] }) hw

theorem withoutRepeats_sublist (seen : List Text) (events : List Event) :
    (withoutRepeats seen events).Sublist events := by
  induction events generalizing seen with
  | nil => exact List.Sublist.slnil
  | cons e rest ih =>
    cases e with
    | result r =>
      rw [withoutRepeats]
      split
      · exact (ih seen).cons _
      · exact (ih _).cons_cons _
    | error _ | note _ | raised _ | refused _ => exact (ih seen).cons_cons _

/-- The same, if results with a path that came before are not shown. -/
theorem Collected.feed_distinct_untilFinal {c : Collected} (hw : c.wanted = none)
    (seen : List Text) (events : List Event) : (receiver.distinct.feed (c, seen) events).1.1 =
      { c with events := c.events ++ untilFinal (withoutRepeats seen (shown events)) } := by
  induction events generalizing c seen with
  | nil => simp [Receiver.feed, withoutRepeats, untilFinal]
  | cons e rest ih =>
    obtain ⟨seen', hreceive, hsplit⟩ := distinct_receive hw seen e
    have hshown : shown (e :: rest) = shown [e] ++ shown rest := shown_append [e] rest
    rw [Receiver.feed, hreceive, hshown, hsplit]
    cases hfinal : e.isFinal with
    | true =>
      -- An event that ends a walk is neither a note nor a result, so it is collected.
      cases e with
      | raised _ | refused _ => rfl
      | result _ | error _ | note _ => cases hfinal
    | false =>
      have hgoes : ∀ f ∈ withoutRepeats seen (shown [e]), f.isFinal = false := by
        intro f hf
        have hmem : f ∈ [e] := List.mem_of_mem_filter ((withoutRepeats_sublist seen _).subset hf)
        rw [List.mem_singleton.1 hmem, hfinal]
      rw [untilFinal_append hgoes, ← List.append_assoc]
      exact ih (c := { c with events := c.events ++ withoutRepeats seen (shown [e]) }) hw seen'

/-- **The events of a walk** are those of the recursion up to the first one that ends it. -/
theorem Walker.walk_eq_untilFinal (w : Walker) {d : Disk} (hd : d.WellFormed) {levels : Nat}
    (hlevels : d.root.size < levels) (path : Text) : (w.walk d path none).1 =
      untilFinal (Walk.listing w.options d
        (Context.tree w.options d w.options.descends levels) path) := by
  obtain ⟨events, hshown, hroot⟩ :=
    Walk.root_eq_feed Collected.steady_receiver w.options hd hlevels path
  have hfeed := Collected.feed_untilFinal (c := { disk := d }) rfl events
  rw [walk, remember, collect, if_neg (by simp), hroot _ rfl, hfeed, hshown]
  rfl

/-- The same for several roots. -/
theorem Walker.walkMany_eq_untilFinal (w : Walker) {d : Disk} (hd : d.WellFormed) {levels : Nat}
    (hlevels : d.root.size < levels) (roots : List Text) : (w.walkMany d roots none).1 =
      untilFinal
        (match w.options.output with
        | .files => roots.flatMap (Walk.listing w.options d
            (Context.tree w.options d w.options.descends levels))
        | .directories => withoutRepeats [] (roots.flatMap (Walk.listing w.options d
            (Context.tree w.options d w.options.descends levels)))) := by
  rw [walkMany, remember, collect, if_neg (by simp), Walk.many]
  cases hout : w.options.output with
  | files =>
    obtain ⟨events, hshown, hfed⟩ :=
      Walk.arguments_eq_feed Collected.steady_receiver w.options hd hlevels roots
    have hfeed := Collected.feed_untilFinal (c := { disk := d }) rfl events
    simp only [hfed { disk := d } rfl, hfeed, hshown]
    rfl
  | directories =>
    obtain ⟨events, hshown, hfed⟩ :=
      Walk.arguments_eq_feed Collected.steady_receiver.distinct w.options hd hlevels roots
    have hfeed := Collected.feed_distinct_untilFinal (c := { disk := d }) rfl [] events
    simp only [hfed ({ disk := d }, []) rfl, hfeed, hshown]
    rfl

end TreeSieve
