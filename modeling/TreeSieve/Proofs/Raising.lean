import TreeSieve.Proofs.Ending

/-!
# Errors that end a walk, and the same errors reported

The action for errors decides only what becomes of an error. With one action the recursion goes
over the same directories in the same order as with the other (`Context.walk_raise`), and where the
one reports an error the other has the event that ends the walk (`Event.ending`). So a walk that is
ended by errors shows what the reporting walk shows before its first error, and then that error
(`Walker.raise_eq_report_until_error`). This also holds where directories are shown, which come
after the errors of their root.
-/

namespace TreeSieve

/-- What becomes of an event where errors end a walk. -/
def Event.ending : Event → Event
  | .error e => .raised e
  | e => e

theorem Event.result?_ending (e : Event) : e.ending.result? = e.result? := by
  cases e <;> rfl

theorem Event.ending_eq_self {e : Event} (h : e.error? = none) : e.ending = e := by
  cases e with
  | error _ => cases h
  | result _ | note _ | raised _ | refused _ => rfl

theorem map_ending_eq_self {events : List Event} (h : ∀ e ∈ events, e.error? = none) :
    events.map Event.ending = events :=
  (List.map_congr_left fun e he => Event.ending_eq_self (h e he)).trans (List.map_id' events)

/-! ## Up to the first error -/

theorem untilFinal_ending {before after : List Event} {e : WalkError}
    (hfinal : ∀ f ∈ before, f.isFinal = false) (hbefore : ∀ f ∈ before, f.error? = none) :
    untilFinal ((before ++ .error e :: after).map Event.ending) = before ++ [.raised e] := by
  rw [List.map_append, map_ending_eq_self hbefore, untilFinal_append hfinal]
  rfl

theorem untilFinal_of_not_error {events : List Event} (hfinal : ∀ f ∈ events, f.isFinal = false)
    (h : ∀ f ∈ events, f.error? = none) : untilFinal (events.map Event.ending) = events := by
  have hall := untilFinal_append hfinal []
  rw [List.append_nil] at hall
  rw [map_ending_eq_self h, hall]
  exact List.append_nil events

/-- No error is reported where all errors end the walk. -/
theorem error?_of_mem_untilFinal_ending {events : List Event} :
    ∀ f ∈ untilFinal (events.map Event.ending), f.error? = none := by
  intro f hf
  obtain ⟨e, he, rfl⟩ := List.mem_map.1 ((isPrefix_untilFinal _).subset hf)
  cases e <;> rfl

theorem withoutRepeats_ending (seen : List Text) (events : List Event) :
    withoutRepeats seen (events.map Event.ending) =
      (withoutRepeats seen events).map Event.ending := by
  induction events generalizing seen with
  | nil => rfl
  | cons e rest ih =>
    cases e with
    | result r =>
      have hself : (Event.result r).ending = .result r := rfl
      rw [List.map_cons, hself, withoutRepeats, withoutRepeats, ih, ih]
      split <;> rfl
    | error _ | note _ | raised _ | refused _ =>
      exact congrArg (_ :: ·) (ih seen)

/-! ## The recursion -/

/-- The options with another action for errors. -/
def Options.withErrorAction (o : Options) (action : ErrorAction) : Options :=
  { o with onError := action }

section Recursion

variable (o : Options) (d : Disk)

theorem failure_raise (e : WalkError) :
    (o.withErrorAction .raise).failure e = ((o.withErrorAction .report).failure e).ending := rfl

/-- Both go over the same directories. -/
theorem Context.walk_raise (into : Standing → Bool) (levels : Nat) (c : Context) :
    c.walk (o.withErrorAction .raise) d into levels =
      (c.walk (o.withErrorAction .report) d into levels).map Event.ending := by
  induction levels generalizing c with
  | zero => rfl
  | succ levels ih =>
    have henter :
        c.enter (o.withErrorAction .raise) d = c.enter (o.withErrorAction .report) d := rfl
    rw [walk, walk, henter]
    cases c.enter (o.withErrorAction .report) d with
    | error e => rfl
    | ok scope =>
      obtain ⟨rules, children⟩ := scope
      have hown : ∀ es : List Entry, (es.map result).map Event.ending = es.map result := by
        intro es
        rw [List.map_map]
        rfl
      simp only [List.map_append, List.map_flatMap, hown, funext ih]
      rfl

theorem Context.live_raise (into : Standing → Bool) (levels : Nat) (c : Context) :
    c.live (o.withErrorAction .raise) d into levels =
      c.live (o.withErrorAction .report) d into levels := by
  apply Context.live_congr <;> intros <;> rfl

theorem Context.tree_raise (into : Standing → Bool) (levels : Nat) (path : Text) :
    tree (o.withErrorAction .raise) d into levels path =
      (tree (o.withErrorAction .report) d into levels path).map Event.ending := by
  have hroot :
      root (o.withErrorAction .raise) d path = root (o.withErrorAction .report) d path := rfl
  have hdirs : ∀ paths : List Text,
      (paths.map fun path => Event.result ⟨Path.plain path, true⟩).map Event.ending =
        paths.map fun path => .result ⟨Path.plain path, true⟩ := by
    intro paths
    rw [List.map_map]
    rfl
  rw [tree, tree, hroot, walk_raise, live_raise, Options.listing, Options.listing]
  have hout : (o.withErrorAction .raise).output = (o.withErrorAction .report).output := rfl
  rw [hout]
  cases (o.withErrorAction .report).output with
  | files => rfl
  | directories =>
    simp only [List.map_append, hdirs, List.filter_map]
    have hkind :
        (fun e : Event => e.result?.isNone) ∘ Event.ending = fun e => e.result?.isNone := by
      funext e
      rw [Function.comp_apply, Event.result?_ending]
    rw [hkind]

theorem Walk.listing_raise (into : Standing → Bool) (levels : Nat) (path : Text) :
    listing (o.withErrorAction .raise) d
        (Context.tree (o.withErrorAction .raise) d into levels) path =
      (listing (o.withErrorAction .report) d
        (Context.tree (o.withErrorAction .report) d into levels) path).map Event.ending := by
  have hfile : singleFile (o.withErrorAction .raise) d path =
      singleFile (o.withErrorAction .report) d path := rfl
  rw [listing, listing, Context.tree_raise, hfile, failure_raise]
  split
  · split
    · rfl
    · refine (map_ending_eq_self fun e he => ?_).symm
      obtain ⟨r, rfl⟩ := mem_singleFile he
      rfl
  · rfl

end Recursion

namespace Walker

/-- The walker with another action for errors. -/
def withErrorAction (w : Walker) (action : ErrorAction) : Walker :=
  { w with options := w.options.withErrorAction action }

section WellFormed

variable (w : Walker) {d : Disk} (hd : d.WellFormed) (roots : List Text)

include hd

theorem isFinal_of_mem_walkMany_report :
    ∀ e ∈ ((w.withErrorAction .report).walkMany d roots none).1, e.isFinal = false := by
  have hlevels : d.root.size < d.root.size + 1 := Nat.lt_succ_self _
  have hreport : (w.withErrorAction .report).options.onError = .report := rfl
  have hone : ∀ path, ∀ e ∈ ((w.withErrorAction .report).walk d path none).1,
      e.isFinal = false := by
    intro path e he
    rw [walk_eq hreport hd hlevels] at he
    exact isFinal_listing hreport d (isFinal_tree hreport d _ _) path e he
  have hall : ∀ e ∈ roots.flatMap fun path => ((w.withErrorAction .report).walk d path none).1,
      e.isFinal = false := by
    intro e he
    obtain ⟨path, -, he⟩ := List.mem_flatMap.1 he
    exact hone path e he
  intro e he
  rw [walkMany_eq hreport hd hlevels] at he
  cases hout : (w.withErrorAction .report).options.output with
  | files =>
    rw [hout] at he
    exact hall e he
  | directories =>
    rw [hout] at he
    exact hall e ((withoutRepeats_sublist _ _).subset he)

/-- Where errors end a walk, it shows the reported events up to the first error, which ends it. -/
theorem walkMany_raise : ((w.withErrorAction .raise).walkMany d roots none).1 =
    untilFinal (((w.withErrorAction .report).walkMany d roots none).1.map Event.ending) := by
  have hlevels : d.root.size < d.root.size + 1 := Nat.lt_succ_self _
  have hreport : (w.withErrorAction .report).options.onError = .report := rfl
  have hroots : roots.flatMap (Walk.listing (w.withErrorAction .raise).options d
        (Context.tree (w.withErrorAction .raise).options d
          (w.withErrorAction .raise).options.descends (d.root.size + 1))) =
      (roots.flatMap fun path => ((w.withErrorAction .report).walk d path none).1).map
        Event.ending := by
    rw [List.map_flatMap]
    apply List.flatMap_congr
    intro path _
    rw [walk_eq hreport hd hlevels]
    exact Walk.listing_raise w.options d _ _ path
  rw [walkMany_eq_untilFinal _ hd hlevels, hroots, walkMany_eq hreport hd hlevels]
  have hout : (w.withErrorAction .raise).options.output =
      (w.withErrorAction .report).options.output := rfl
  rw [hout]
  cases (w.withErrorAction .report).options.output with
  | files => rfl
  | directories => simp only [withoutRepeats_ending]

end WellFormed

/-- **Raising is reporting up to the first error.** Where errors end a walk of several roots, it
shows what the reporting walk shows before its first error, and then ends with that error; without
an error both show the same. It reports no error, while the other one remembers all errors that it
reports, in order. -/
theorem raise_eq_report_until_error (w : Walker) {d : Disk} (hd : d.WellFormed)
    (roots : List Text) :
    let report := (w.withErrorAction .report).walkMany d roots none
    let raise := (w.withErrorAction .raise).walkMany d roots none
    (∀ before e after, report.1 = before ++ .error e :: after →
      (∀ f ∈ before, f.error? = none) → raise.1 = before ++ [.raised e]) ∧
    ((∀ f ∈ report.1, f.error? = none) → raise.1 = report.1) ∧
    raise.2.errors = w.errors ∧
    report.2.errors = w.errors ++ report.1.filterMap Event.error? := by
  intro report raise
  have hraise : raise.1 = untilFinal (report.1.map Event.ending) := walkMany_raise w hd roots
  have hfinal : ∀ f ∈ report.1, f.isFinal = false := isFinal_of_mem_walkMany_report w hd roots
  refine ⟨?_, ?_, ?_, rfl⟩
  · intro before e after heq hbefore
    rw [heq] at hfinal
    rw [hraise, heq]
    exact untilFinal_ending (fun f hf => hfinal f (List.mem_append_left _ hf)) hbefore
  · intro hnone
    rw [hraise]
    exact untilFinal_of_not_error hfinal hnone
  · have hnone : raise.1.filterMap Event.error? = [] := by
      rw [hraise]
      exact List.filterMap_eq_nil_iff.2 error?_of_mem_untilFinal_ending
    have hremember : raise.2.errors = w.errors ++ raise.1.filterMap Event.error? := rfl
    rw [hremember, hnone, List.append_nil]

/-- A directory with a file, one that cannot be listed, and a missing root. -/
theorem raise_eq_report_until_error_missing_root :
    let w : Walker := { options := { output := .directories }, errors := [.rootMissing "/d"] }
    let d : Disk := ⟨.directory [("a", .directory [("x", .file [])]), ("b", .directory [])], [],
      [["b"]]⟩
    ((w.withErrorAction .raise).walkMany d ["/a", "/b", "/c"] none).1 =
        [.result ⟨"/a", true⟩, .raised (.unreadable "/b" (.ofFault .denied))] ∧
      ((w.withErrorAction .raise).walkMany d ["/a", "/b", "/c"] none).2.errors =
        [.rootMissing "/d"] := by
  intro w d
  obtain ⟨hfirst, -, herrors, -⟩ :=
    raise_eq_report_until_error w (d := d) (by decide) ["/a", "/b", "/c"]
  refine ⟨?_, herrors⟩
  exact hfirst [.result ⟨"/a", true⟩] (.unreadable "/b" (.ofFault .denied))
    [.error (.rootMissing "/c")] (by cbv) (by decide)

end Walker

end TreeSieve
