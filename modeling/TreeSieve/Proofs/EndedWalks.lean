import TreeSieve.Proofs.EventSequence
import TreeSieve.Proofs.Raising

/-!
# Walks that are ended by errors, whatever is done with their events

What is done with the events of a walk may change the file system, and then the walk by itself says
nothing about the rest. But the action for errors still decides only what becomes of an error. A
walk that is ended by errors is the walk that reports them, for a receiver that takes a reported
error as the end (`Receiver.ending`, `Walk.many_raise`). And such a receiver takes the same events
as the one that it is made of, up to the first error (`Receiver.feed_ending`).
-/

namespace TreeSieve

/-- Whether an event belongs to a reported error: the error itself, or the note about it. -/
def Event.isReport : Event → Bool
  | .error _ => true
  | .note (.reported _) => true
  | _ => false

/-- What becomes of an event where errors end a walk. Such an error has no note. -/
def Event.raising : Event → List Event
  | .note (.reported _) => []
  | .error e => [.raised e]
  | e => [e]

theorem Event.raising_of_not_isReport {e : Event} (h : e.isReport = false) : e.raising = [e] := by
  cases e with
  | error _ => cases h
  | note n => cases n with
    | reported _ => cases h
    | walking _ | loaded _ _ | tooDeep _ _ | loop _ | unmatched _ => rfl
  | result _ | raised _ | refused _ => rfl

theorem flatMap_raising_eq_self {events : List Event} (h : ∀ e ∈ events, e.isReport = false) :
    events.flatMap Event.raising = events := by
  rw [List.flatMap_congr fun e he => Event.raising_of_not_isReport (h e he),
    List.flatMap_singleton']

theorem onFailure_raise (o : Options) (e : WalkError) : (o.withErrorAction .raise).onFailure e =
    ((o.withErrorAction .report).onFailure e).flatMap Event.raising := rfl

/-! ## The steps of a traversal -/

namespace Traversal

variable (o : Options) (d : Disk) (t : Traversal)

theorem isReport_of_mem_schedule {f : Frame} {e : Entry} {excludedBy : Nat} :
    ∀ n ∈ (schedule o d t f e excludedBy).2, n.isReport = false := by
  unfold schedule
  split
  · simp
  · split
    · exact List.forall_mem_singleton.2 rfl
    · dsimp only
      generalize
        (if o.followLinks then d.identity? (Path.join f.absolute e.name) else none) = identity
      split
      · exact List.forall_mem_singleton.2 rfl
      · simp

theorem isReport_of_mem_visit {f : Frame} {h : Harvest} (hh : ∀ n ∈ h.events, n.isReport = false)
    (e : Entry) : ∀ n ∈ (visit o d t f h e).events, n.isReport = false := by
  unfold visit
  split
  · split
    · exact List.forall_mem_append.2 ⟨hh, isReport_of_mem_schedule o d t⟩
    · exact hh
  · split
    · exact hh
    · split
      · split
        · exact List.forall_mem_append.2 ⟨hh, List.forall_mem_singleton.2 rfl⟩
        · exact hh
      · split
        · exact hh
        · split <;> exact hh

theorem isReport_of_mem_foldl_visit {f : Frame} {h : Harvest}
    (hh : ∀ n ∈ h.events, n.isReport = false) (children : List Entry) :
    ∀ n ∈ (children.foldl (visit o d t f) h).events, n.isReport = false := by
  induction children generalizing h with
  | nil => exact hh
  | cons e rest ih => exact ih (isReport_of_mem_visit o d t hh e)

theorem isReport_of_mem_openScope (rules : RuleStack) (f : Frame) :
    ∀ n ∈ (openScope o d rules f).notes, n.isReport = false := by
  unfold openScope
  cases ruleFile o d f with
  | error e => simp
  | ok found =>
    simp only [List.mem_map]
    rintro _ ⟨⟨rules, file⟩, -, rfl⟩
    rfl

/-- **One step** does the same under both actions, but for what becomes of an error. -/
theorem step_raise : step (o.withErrorAction .raise) d t =
    ((step (o.withErrorAction .report) d t).1.flatMap Event.raising,
      (step (o.withErrorAction .report) d t).2) := by
  unfold step
  split
  · rfl
  · split
    · rfl
    · next f rest _ _ =>
      have hscope : openScope (o.withErrorAction .raise) d t.rules f =
        openScope (o.withErrorAction .report) d t.rules f := rfl
      have hvisit : visit (o.withErrorAction .raise) d = visit (o.withErrorAction .report) d := rfl
      have hnotes := flatMap_raising_eq_self
        (isReport_of_mem_openScope (o.withErrorAction .report) d t.rules f)
      unfold enter
      simp only [hscope, hvisit]
      split
      · next e _ => rw [List.flatMap_append, hnotes, onFailure_raise]
      · next children _ =>
        rw [List.flatMap_append, hnotes, flatMap_raising_eq_self]
        exact isReport_of_mem_foldl_visit _ d _ (by simp) children

end Traversal

/-! ## Receivers that take errors as the end -/

namespace Receiver

variable {σ : Type}

/-- The receiver that takes a reported error as one that ends the walk. -/
def ending (r : Receiver σ) : Receiver σ where
  disk := r.disk
  receive s e :=
    match e with
    | .note (.reported _) => (s, true)
    | .error e => ((r.receive s (.raised e)).1, false)
    | e => r.receive s e

@[simp] theorem ending_disk (r : Receiver σ) : r.ending.disk = r.disk := rfl

theorem ending_receive_of_not_isReport (r : Receiver σ) (s : σ) {e : Event}
    (h : e.isReport = false) : r.ending.receive s e = r.receive s e := by
  cases e with
  | error _ => cases h
  | note n => cases n with
    | reported _ => cases h
    | walking _ | loaded _ _ | tooDeep _ _ | loop _ | unmatched _ => rfl
  | result _ | raised _ | refused _ => rfl

/-- **Events** are taken up to the first error. -/
theorem feed_ending (r : Receiver σ) (s : σ) (events : List Event) :
    r.ending.feed s events = r.feed s (events.flatMap Event.raising) := by
  induction events generalizing s with
  | nil => rfl
  | cons e rest ih =>
    rw [List.flatMap_cons]
    cases hreport : e.isReport with
    | false =>
      rw [Event.raising_of_not_isReport hreport, List.singleton_append, feed, feed,
        ending_receive_of_not_isReport r s hreport]
      simp only [ih]
    | true =>
      cases e with
      | note n => cases n with
        | reported _ => exact ih s
        | walking _ | loaded _ _ | tooDeep _ _ | loop _ | unmatched _ => cases hreport
      | error e =>
        have hlast : ((r.receive s (.raised e)).1, false) =
            r.feed s (.raised e :: rest.flatMap Event.raising) := by
          rw [feed]
          cases r.receive s (.raised e) with
          | mk s' goesOn => cases goesOn <;> rfl
        exact hlast
      | result _ | raised _ | refused _ => cases hreport

theorem ending_distinct (r : Receiver σ) : r.ending.distinct = r.distinct.ending := by
  have hreceive : r.ending.distinct.receive = r.distinct.ending.receive := by
    funext s e
    cases e with
    | note n => cases n <;> rfl
    | result _ | error _ | raised _ | refused _ => rfl
  exact congrArg (Receiver.mk _) hreceive

end Receiver

/-! ## Walks -/

namespace Walk

variable {σ : Type} (o : Options) (r : Receiver σ)

theorem isReport_of_mem_singleFile (d : Disk) (path : Text) :
    ∀ e ∈ singleFile o d path, e.isReport = false := by
  intro e he
  obtain ⟨result, rfl⟩ := mem_singleFile he
  rfl

theorem run_raise (steps : Nat) (t : Traversal) (s : σ) :
    run (o.withErrorAction .raise) r steps t s =
      run (o.withErrorAction .report) r.ending steps t s := by
  induction steps generalizing t s with
  | zero => rfl
  | succ steps ih =>
    rw [run, run, Traversal.step_raise]
    simp only [Receiver.ending_disk, Receiver.feed_ending, ih]

theorem tree_raise (path : Text) (s : σ) : tree (o.withErrorAction .raise) r path s =
    tree (o.withErrorAction .report) r.ending path s := by
  have hstart : Traversal.start (o.withErrorAction .raise) (r.disk s) path =
    Traversal.start (o.withErrorAction .report) (r.disk s) path := rfl
  rw [tree, tree, run_raise, hstart]
  simp only [Receiver.ending_disk]
  split
  · next s' t _ =>
    rw [Receiver.feed_ending, flatMap_raising_eq_self]
    intro e he
    obtain ⟨path, -, rfl⟩ := List.mem_map.1 he
    rfl
  · rfl

theorem root_raise (path : Text) (s : σ) : root (o.withErrorAction .raise) r path s =
    root (o.withErrorAction .report) r.ending path s := by
  have hfile : singleFile (o.withErrorAction .raise) (r.disk s) path =
    singleFile (o.withErrorAction .report) (r.disk s) path := rfl
  have hplain := flatMap_raising_eq_self
    (isReport_of_mem_singleFile (o.withErrorAction .report) (r.disk s) path)
  simp only [root, Receiver.ending_disk, Receiver.feed_ending, tree_raise, hfile, hplain,
    onFailure_raise]
  rfl

theorem roots_raise (paths : List Text) (s : σ) : roots (o.withErrorAction .raise) r paths s =
    roots (o.withErrorAction .report) r.ending paths s := by
  induction paths generalizing s with
  | nil => rfl
  | cons path rest ih => simp only [roots, root_raise, ih]

theorem arguments_raise (args : List RootArgument) (s : σ) :
    arguments (o.withErrorAction .raise) r args s =
      arguments (o.withErrorAction .report) r.ending args s := by
  induction args generalizing s with
  | nil => rfl
  | cons argument rest ih =>
    simp only [arguments, Receiver.ending_disk, Receiver.feed_ending, roots_raise, ih]
    cases hresolve : argument.resolve (r.disk s) with
    | error fault => rfl
    | ok found =>
      have hnotes : found.2.flatMap Event.raising = found.2 := by
        refine flatMap_raising_eq_self fun e he => ?_
        obtain ⟨wildcard, rfl⟩ := RootArgument.unmatched_of_mem_resolve hresolve e he
        rfl
      simp only [hnotes]

/-- **A walk that is ended by errors** is the walk that reports them, for a receiver that takes a
reported error as the end. -/
theorem many_raise (args : List RootArgument) (s : σ) :
    many (o.withErrorAction .raise) r args s =
      many (o.withErrorAction .report) r.ending args s := by
  have hout : (o.withErrorAction .raise).output = (o.withErrorAction .report).output := rfl
  rw [many, many, hout]
  cases (o.withErrorAction .report).output with
  | files => exact arguments_raise o r args s
  | directories => simp only [arguments_raise, Receiver.ending_distinct]

end Walk

end TreeSieve
