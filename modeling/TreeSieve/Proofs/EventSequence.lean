import TreeSieve.Proofs.ByteRoots
import TreeSieve.Proofs.Ending
import TreeSieve.Proofs.ShownPaths

/-!
# The events of a walk are there from the beginning

A walk asks its receiver for nothing but whether to go on and for the file system as it is. So a
receiver determines one list of events, and all receivers that go along with it, with the same file
system at each moment, take the events of this list until they have enough (`Walk.HandsOver`). What
one receiver saw of a walk is then known from what another one saw.

Besides, the list tells where its results come from (`Walk.Shows`): each is shown under a path below
a root of the walk, on which names of the tree lead on from the root.
-/

namespace TreeSieve

open TreeSieve.Sym

/-! ## Roots -/

theorem Disk.nul_not_mem_of_has {d : Disk} {path : Text} (h : d.has path = true) : nul ∉ path := by
  rw [has, node?] at h
  cases hlocate : d.locate path with
  | error fault =>
    rw [hlocate] at h
    cases h
  | ok l => exact (locate_eq_ok hlocate).1

/-- What there is to note about an argument is that nothing matches. -/
theorem RootArgument.unmatched_of_mem_resolve {d : Disk} {argument : RootArgument}
    {roots : List Text} {notes : List Event} (h : argument.resolve d = .ok (roots, notes)) :
    ∀ e ∈ notes, ∃ wildcard, e = .note (.unmatched wildcard) := by
  cases argument with
  | given _ | literal _ =>
    obtain ⟨-, rfl⟩ := Prod.mk.inj (Except.ok.inj h)
    simp
  | pattern text =>
    rw [resolve] at h
    split at h
    · obtain ⟨found, -, h⟩ := exists_of_bind_eq_ok h
      split at h <;> obtain ⟨-, rfl⟩ := Prod.mk.inj (Except.ok.inj h)
      · exact List.forall_mem_singleton.2 ⟨text, rfl⟩
      · simp
    · obtain ⟨-, rfl⟩ := Prod.mk.inj (Except.ok.inj h)
      simp

/-! ## Receivers that go along with others -/

namespace Receiver

variable {σ τ : Type}

/-- A receiver that is not shown repeated results takes the events without them. -/
theorem feed_distinct_eq (r : Receiver σ) (s : σ) (seen : List Text)
    (events : List Event) :
    ((r.distinct.feed (s, seen) events).1.1, (r.distinct.feed (s, seen) events).2) =
      r.feed s (withoutRepeats seen events) := by
  induction events generalizing s seen with
  | nil => rfl
  | cons e rest ih =>
    have hshown : ∀ seen', r.distinct.receive (s, seen) e =
          (((r.receive s e).1, seen'), (r.receive s e).2) →
        ((r.distinct.feed (s, seen) (e :: rest)).1.1, (r.distinct.feed (s, seen) (e :: rest)).2) =
          r.feed s (e :: withoutRepeats seen' rest) := by
      intro seen' hreceive
      rw [feed, feed, hreceive]
      cases r.receive s e with
      | mk s' goesOn =>
        cases goesOn with
        | false => rfl
        | true => cases hfinal : e.isFinal <;> simp [ih]
    cases e with
    | result result =>
      by_cases hseen : result.path ∈ seen
      · have hskipped : r.distinct.receive (s, seen) (.result result) = ((s, seen), true) :=
          if_pos hseen
        rw [feed, hskipped, withoutRepeats, if_pos hseen]
        exact ih s seen
      · rw [withoutRepeats, if_neg hseen]
        exact hshown _ (if_neg hseen)
    | error _ | note _ | raised _ | refused _ => exact hshown seen rfl

/-- A receiver goes along with another one: they see the same file system, and as long as the first
one goes on, so does the second. -/
structure Follows (r' : Receiver τ) (r : Receiver σ) (R : τ → σ → Prop) : Prop where
  disk : ∀ {s' s}, R s' s → r'.disk s' = r.disk s
  receive : ∀ {s' s e}, R s' s → (r'.receive s' e).2 = true →
    (r.receive s e).2 = true ∧ R (r'.receive s' e).1 (r.receive s e).1

theorem Follows.refl (r : Receiver σ) : r.Follows r Eq where
  disk h := congrArg r.disk h
  receive := by
    rintro s _ e rfl h
    exact ⟨h, rfl⟩

variable {r' : Receiver τ} {r : Receiver σ} {R : τ → σ → Prop}

theorem Follows.feed (h : r'.Follows r R) {s' : τ} {s : σ} (hs : R s' s) {events : List Event}
    (hfeed : (r'.feed s' events).2 = true) :
    (r.feed s events).2 = true ∧ R (r'.feed s' events).1 (r.feed s events).1 := by
  induction events generalizing s' s with
  | nil => exact ⟨rfl, hs⟩
  | cons e rest ih =>
    have hstep := h.receive (e := e) hs
    rw [Receiver.feed] at hfeed ⊢
    rw [Receiver.feed]
    cases hreceive' : r'.receive s' e with
    | mk u' goesOn' =>
      cases hreceive : r.receive s e with
      | mk u goesOn =>
        rw [hreceive', hreceive] at hstep
        rw [hreceive'] at hfeed
        cases goesOn' with
        | false => cases hfeed
        | true =>
          obtain ⟨rfl, hu⟩ := hstep rfl
          cases hfinal : e.isFinal with
          | true =>
            rw [hfinal] at hfeed
            cases hfeed
          | false =>
            rw [hfinal] at hfeed
            exact ih hu hfeed

theorem Follows.distinct (h : r'.Follows r R) :
    r'.distinct.Follows r.distinct fun s' s => R s'.1 s.1 ∧ s'.2 = s.2 where
  disk hs := h.disk hs.1
  receive := by
    rintro ⟨s', _⟩ ⟨s, seen⟩ e ⟨hs, rfl⟩ hgoesOn
    have hshown : (r'.receive s' e).2 = true →
        (r.receive s e).2 = true ∧ R (r'.receive s' e).1 (r.receive s e).1 := h.receive hs
    cases e with
    | result result =>
      simp only [Receiver.distinct] at hgoesOn ⊢
      split at hgoesOn
      · next hseen =>
        simp only [if_pos hseen]
        exact ⟨trivial, hs, trivial⟩
      · next hseen =>
        simp only [if_neg hseen]
        exact ⟨(hshown hgoesOn).1, (hshown hgoesOn).2, trivial⟩
    | error _ | note _ | raised _ | refused _ =>
      exact ⟨(hshown hgoesOn).1, (hshown hgoesOn).2, rfl⟩

/-- What is done with the events brings no names to the file system but those of a list. -/
def KeepsNames (r : Receiver σ) (ns : List Text) : Prop :=
  ∀ s e, (r.disk s).root.names ⊆ ns → (r.disk (r.receive s e).1).root.names ⊆ ns

theorem KeepsNames.feed {ns : List Text} (h : r.KeepsNames ns) {s : σ}
    (hs : (r.disk s).root.names ⊆ ns) (events : List Event) :
    (r.disk (r.feed s events).1).root.names ⊆ ns :=
  Keeps.feed (P := fun d => d.root.names ⊆ ns) h hs events

theorem KeepsNames.distinct {ns : List Text} (h : r.KeepsNames ns) : r.distinct.KeepsNames ns :=
  Keeps.distinct (P := fun d => d.root.names ⊆ ns) h

end Receiver

namespace Walk

variable {σ : Type}

/-! ## Where results come from -/

/-- Where a result is shown that comes from a root: under a path on which names of the tree lead on
from the root, or as the directory of a root that is a file. -/
def Places (o : Options) (ns : List Text) (root : Text) (result : Result) : Prop :=
  (∃ path, Path.IsBelow ns root path ∧ result.path = Path.plain path) ∨
    o.output = .directories ∧ result.path = Path.plain (Path.parent root)

/-- The results among events come from roots that are walked, as the events tell, and that have a
property. -/
def Shows (P : Text → Prop) (o : Options) (ns : List Text) (events : List Event) : Prop :=
  ∀ result, .result result ∈ events →
    ∃ root, .note (.walking root) ∈ events ∧ P root ∧ nul ∉ root ∧ Places o ns root result

variable {P : Text → Prop} {o : Options} {ns : List Text}

theorem shows_of_no_result {events : List Event} (h : ∀ result, .result result ∉ events) :
    Shows P o ns events :=
  fun result hresult => absurd hresult (h result)

theorem Shows.append {events more : List Event} (h : Shows P o ns events)
    (hmore : Shows P o ns more) : Shows P o ns (events ++ more) := by
  intro result hresult
  rcases List.mem_append.1 hresult with hmem | hmem
  · obtain ⟨root, hwalking, hroot⟩ := h result hmem
    exact ⟨root, List.mem_append_left _ hwalking, hroot⟩
  · obtain ⟨root, hwalking, hroot⟩ := hmore result hmem
    exact ⟨root, List.mem_append_right _ hwalking, hroot⟩

theorem note_mem_withoutRepeats {n : Note} {events : List Event} (h : .note n ∈ events)
    (seen : List Text) : .note n ∈ withoutRepeats seen events := by
  induction events generalizing seen with
  | nil => cases h
  | cons e rest ih =>
    have hrest : Event.note n ≠ e → ∀ seen, .note n ∈ withoutRepeats seen rest :=
      fun hne => ih ((List.mem_cons.1 h).resolve_left hne)
    cases e with
    | result result =>
      rw [withoutRepeats]
      split
      · exact hrest (by simp) seen
      · exact List.mem_cons_of_mem _ (hrest (by simp) _)
    | note m =>
      rw [withoutRepeats]
      · by_cases hm : n = m
        · exact hm ▸ List.mem_cons_self
        · exact List.mem_cons_of_mem _ (hrest (by simpa using hm) seen)
      · simp
    | error _ | raised _ | refused _ =>
      rw [withoutRepeats]
      · exact List.mem_cons_of_mem _ (hrest (by simp) seen)
      · simp

theorem Shows.withoutRepeats {events : List Event} (h : Shows P o ns events) (seen : List Text) :
    Shows P o ns (withoutRepeats seen events) := by
  intro result hresult
  obtain ⟨root, hwalking, hroot⟩ := h result ((withoutRepeats_sublist seen events).subset hresult)
  exact ⟨root, note_mem_withoutRepeats hwalking seen, hroot⟩

/-! ## The events of a part of a walk -/

/-- A part of a walk hands over given events to all that go along with a receiver in a state. -/
def HandsOver (r : Receiver σ) (s : σ) (part : ∀ τ : Type, Receiver τ → τ → τ × Bool)
    (events : List Event) : Prop :=
  ∀ {τ : Type} {r' : Receiver τ} {R : τ → σ → Prop}, r'.Follows r R → ∀ s', R s' s →
    part τ r' s' = r'.feed s' events

variable {r : Receiver σ} {s : σ}

theorem handsOver_feed (r : Receiver σ) (s : σ) (events : List Event) :
    HandsOver r s (fun _ r' s' => r'.feed s' events) events :=
  fun _ _ _ => rfl

/-- One part of a walk after another one. -/
theorem HandsOver.andThen {part next : ∀ τ : Type, Receiver τ → τ → τ × Bool}
    {events more : List Event} (h : HandsOver r s part events)
    (hnext : HandsOver r (r.feed s events).1 next more) :
    HandsOver r s
      (fun τ r' s' =>
        match part τ r' s' with
        | (s', true) => next τ r' s'
        | (s', false) => (s', false))
      (events ++ more) := by
  intro τ r' R hr s' hs
  have hafter : (r'.feed s' events).2 = true → _ := hr.feed hs
  beta_reduce
  rw [Receiver.feed_append, h hr s' hs]
  cases hfeed : r'.feed s' events with
  | mk u goesOn =>
    rw [hfeed] at hafter
    cases goesOn with
    | false => rfl
    | true => exact hnext hr u (hafter rfl).2

/-- The steps of a traversal hand over the events of the steps. -/
theorem exists_run_eq_feed (o : Options) (r : Receiver σ) (s : σ) (steps : Nat) (t : Traversal) :
    ∃ events u,
      (∀ {τ : Type} {r' : Receiver τ} {R : τ → σ → Prop}, r'.Follows r R → ∀ s', R s' s →
        run o r' steps t s' =
          match r'.feed s' events with
          | (s', true) => (s', some u)
          | (s', false) => (s', none)) ∧
      ∀ ns root, r.KeepsNames ns → (r.disk s).root.names ⊆ ns → t.ShowsBelow ns root →
        (∀ e ∈ events, e.ShowsBelow ns root) ∧ u.ShowsBelow ns root := by
  induction steps generalizing t s with
  | zero => exact ⟨[], t, fun _ _ _ => rfl, fun _ _ _ _ ht => ⟨by simp, ht⟩⟩
  | succ steps ih =>
    by_cases hq : t.queue.isEmpty = true
    · exact ⟨[], t, fun _ _ _ => by rw [run, if_pos hq]; rfl, fun _ _ _ _ ht => ⟨by simp, ht⟩⟩
    · obtain ⟨events, u, hrun, hbelow⟩ :=
        ih (r.feed s (t.step o (r.disk s)).1).1 (t.step o (r.disk s)).2
      refine ⟨(t.step o (r.disk s)).1 ++ events, u, fun {τ r' R} hr s' hs => ?_,
        fun ns root hkeeps hd ht => ?_⟩
      · have hafter : (r'.feed s' (t.step o (r.disk s)).1).2 = true → _ := hr.feed hs
        rw [run, if_neg hq, hr.disk hs, Receiver.feed_append]
        cases hfeed : r'.feed s' (t.step o (r.disk s)).1 with
        | mk s'' goesOn =>
          rw [hfeed] at hafter
          cases goesOn with
          | false => simp only [hfeed]
          | true => simp only [hfeed, hrun hr s'' (hafter rfl).2]
      · obtain ⟨hstep, hnext⟩ := ht.step (o := o) hd
        obtain ⟨hrest, hu⟩ := hbelow ns root hkeeps (hkeeps.feed hd _) hnext
        exact ⟨List.forall_mem_append.2 ⟨hstep, hrest⟩, hu⟩

theorem exists_handsOver_tree (o : Options) (r : Receiver σ) (s : σ) (path : Text) :
    ∃ events, HandsOver r s (fun _ r' => tree o r' path) events ∧
      ∀ ns, r.KeepsNames ns → (r.disk s).root.names ⊆ ns →
        ∀ e ∈ events, e.ShowsBelow ns path := by
  obtain ⟨events, u, hrun, hbelow⟩ := exists_run_eq_feed o r s
    (Traversal.enoughSteps (r.disk s).root.size) (Traversal.start o (r.disk s) path)
  refine ⟨events ++ u.finish, fun {τ r' R} hr s' hs => ?_, fun ns hkeeps hd => ?_⟩
  · beta_reduce
    rw [tree, hr.disk hs, hrun hr s' hs, Receiver.feed_append]
    cases r'.feed s' events with
    | mk s'' goesOn => cases goesOn <;> rfl
  · obtain ⟨hevents, hu⟩ := hbelow ns path hkeeps hd (Traversal.showsBelow_start o _ ns path)
    exact List.forall_mem_append.2 ⟨hevents, hu.finish⟩

theorem places_of_mem_singleFile {d : Disk} {path : Text} {result : Result}
    (h : .result result ∈ singleFile o d path) : Places o ns path result := by
  unfold singleFile at h
  split at h
  · cases h
  · simp only at h
    split at h
    · cases h
    · split at h
      · obtain rfl := Event.result.inj (List.mem_singleton.1 h)
        exact Or.inl ⟨path, .refl ns path, rfl⟩
      · next hout =>
        obtain rfl := Event.result.inj (List.mem_singleton.1 h)
        exact Or.inr ⟨hout, rfl⟩

theorem exists_handsOver_root (o : Options) (r : Receiver σ) (s : σ) (path : Text) :
    ∃ events, HandsOver r s (fun _ r' => root o r' path) events ∧
      ∀ P ns, r.KeepsNames ns → (r.disk s).root.names ⊆ ns → P path → Shows P o ns events := by
  by_cases hhas : (r.disk s).has path = true
  · let walking : List Event := [.note (.walking path)]
    obtain ⟨below, hbelow, hplaces⟩ : ∃ below, HandsOver r (r.feed s walking).1
        (fun _ r' s' => if (r.disk s).isDirectory path then tree o r' path s'
          else r'.feed s' (singleFile o (r.disk s) path)) below ∧
        ∀ ns, r.KeepsNames ns → (r.disk s).root.names ⊆ ns →
          ∀ result, .result result ∈ below → Places o ns path result := by
      by_cases hdir : (r.disk s).isDirectory path = true
      · obtain ⟨below, htree, hshows⟩ := exists_handsOver_tree o r (r.feed s walking).1 path
        simp only [hdir, if_true]
        refine ⟨below, htree, fun ns hkeeps hd result hresult => Or.inl ?_⟩
        exact hshows ns hkeeps (hkeeps.feed hd walking) _ hresult result rfl
      · exact ⟨singleFile o (r.disk s) path, fun _ _ _ => if_neg hdir,
          fun ns _ _ result => places_of_mem_singleFile⟩
    refine ⟨walking ++ below, fun {τ r' R} hr s' hs => ?_, fun P ns hkeeps hd hpath => ?_⟩
    · beta_reduce
      rw [root, hr.disk hs, if_pos hhas]
      exact HandsOver.andThen (handsOver_feed r s walking) hbelow hr s' hs
    · intro result hresult
      have hmem : Event.result result ∈ below := by simpa [walking] using hresult
      exact ⟨path, List.mem_append_left _ List.mem_cons_self, hpath,
        Disk.nul_not_mem_of_has hhas, hplaces ns hkeeps hd result hmem⟩
  · refine ⟨o.onFailure (.rootMissing path), fun {τ r' R} hr s' hs => ?_, fun P ns _ _ _ => ?_⟩
    · beta_reduce
      rw [root, hr.disk hs, if_neg hhas]
    · refine shows_of_no_result fun result hresult => ?_
      unfold Options.onFailure at hresult
      split at hresult <;> simp at hresult

theorem exists_handsOver_roots (o : Options) (r : Receiver σ) (s : σ) (paths : List Text) :
    ∃ events, HandsOver r s (fun _ r' => roots o r' paths) events ∧
      ∀ P ns, r.KeepsNames ns → (r.disk s).root.names ⊆ ns → (∀ path ∈ paths, P path) →
        Shows P o ns events := by
  induction paths generalizing s with
  | nil => exact ⟨[], fun _ _ _ => rfl, fun _ _ _ _ _ => shows_of_no_result (by simp)⟩
  | cons path rest ih =>
    obtain ⟨events, hroot, hshows⟩ := exists_handsOver_root o r s path
    obtain ⟨more, hrest, hmore⟩ := ih (r.feed s events).1
    refine ⟨events ++ more, hroot.andThen hrest, fun P ns hkeeps hd hpaths => ?_⟩
    obtain ⟨hpath, hpaths⟩ := List.forall_mem_cons.1 hpaths
    exact (hshows P ns hkeeps hd hpath).append
      (hmore P ns hkeeps (hkeeps.feed hd events) hpaths)

theorem exists_handsOver_arguments (o : Options) (r : Receiver σ) (s : σ)
    (args : List RootArgument) :
    ∃ events, HandsOver r s (fun _ r' => arguments o r' args) events ∧
      ∀ P ns, Path.Piecewise P → (∀ name ∈ ns, P name) → r.KeepsNames ns →
        (r.disk s).root.names ⊆ ns → (∀ argument ∈ args, P argument.text) →
        Shows P o ns events := by
  induction args generalizing s with
  | nil => exact ⟨[], fun _ _ _ => rfl, fun _ _ _ _ _ _ _ => shows_of_no_result (by simp)⟩
  | cons argument rest ih =>
    cases hresolve : argument.resolve (r.disk s) with
    | error fault =>
      refine ⟨[.refused fault], fun {τ r' R} hr s' hs => ?_,
        fun _ _ _ _ _ _ _ => shows_of_no_result (by simp)⟩
      beta_reduce
      rw [arguments, hr.disk hs, hresolve]
    | ok found =>
      obtain ⟨paths, notes⟩ := found
      obtain ⟨events, hroots, hshows⟩ := exists_handsOver_roots o r (r.feed s notes).1 paths
      obtain ⟨more, hrest, hmore⟩ := ih (r.feed (r.feed s notes).1 events).1
      refine ⟨notes ++ (events ++ more), fun {τ r' R} hr s' hs => ?_,
        fun P ns hP hns hkeeps hd hargs => ?_⟩
      · beta_reduce
        rw [arguments, hr.disk hs, hresolve]
        exact HandsOver.andThen (handsOver_feed r s notes) (hroots.andThen hrest) hr s' hs
      · obtain ⟨hargument, hargs⟩ := List.forall_mem_cons.1 hargs
        have hpaths := RootArgument.forall_mem_resolve hP (fun name hname => hns name (hd hname))
          hargument hresolve
        have hnotes := RootArgument.unmatched_of_mem_resolve hresolve
        have hd₁ := hkeeps.feed hd notes
        have hd₂ := hkeeps.feed hd₁ events
        refine (shows_of_no_result fun result hresult => ?_).append
          ((hshows P ns hkeeps hd₁ hpaths).append (hmore P ns hP hns hkeeps hd₂ hargs))
        obtain ⟨wildcard, hnote⟩ := hnotes _ hresult
        cases hnote

/-- **A walk is a list of events.** -/
theorem exists_handsOver_many (o : Options) (r : Receiver σ) (s : σ) (args : List RootArgument) :
    ∃ events, HandsOver r s (fun _ r' => many o r' args) events ∧
      ∀ P ns, Path.Piecewise P → (∀ name ∈ ns, P name) → r.KeepsNames ns →
        (r.disk s).root.names ⊆ ns → (∀ argument ∈ args, P argument.text) →
        Shows P o ns events := by
  cases hout : o.output with
  | files =>
    obtain ⟨events, hall, hshows⟩ := exists_handsOver_arguments o r s args
    refine ⟨events, fun {τ r' R} hr s' hs => ?_, hshows⟩
    simp only [many, hout]
    exact hall hr s' hs
  | directories =>
    obtain ⟨events, hall, hshows⟩ := exists_handsOver_arguments o r.distinct (s, []) args
    refine ⟨withoutRepeats [] events, fun {τ r' R} hr s' hs => ?_,
      fun P ns hP hns hkeeps hd hargs => ?_⟩
    · have hfed : arguments o r'.distinct args (s', []) = _ := hall hr.distinct (s', []) ⟨hs, rfl⟩
      simp only [many, hout, hfed]
      exact r'.feed_distinct_eq s' [] events
    · exact (hshows P ns hP hns hkeeps.distinct hd hargs).withoutRepeats []

/-! ## Receivers that leave the file system alone -/

/-- The events of a walk are the same for all receivers that leave the file system alone. -/
theorem exists_many_eq_feed_of_steady (o : Options) (d : Disk) (args : List RootArgument) :
    ∃ events, ∀ {τ : Type} {r' : Receiver τ}, r'.Steady → ∀ s', r'.disk s' = d →
      many o r' args s' = r'.feed s' events := by
  let still : Receiver Unit := { disk := fun _ => d, receive := fun s _ => (s, true) }
  obtain ⟨events, hall, -⟩ := exists_handsOver_many o still () args
  refine ⟨events, fun {τ r'} hr s' hs => ?_⟩
  have hfollows : r'.Follows still fun s' _ => r'.disk s' = d :=
    { disk := fun hs => hs
      receive := fun {s' _ e} hs _ => ⟨rfl, (hr s' e).trans hs⟩ }
  exact hall hfollows s' hs

end Walk

end TreeSieve
