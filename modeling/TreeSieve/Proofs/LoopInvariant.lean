import TreeSieve.Proofs.LoopHead

/-!
# The loop of a traversal

Between two steps the queue of a traversal falls into levels, the deepest first. A level is a
directory that has been entered, with the subdirectories of it that still wait in front of it
(`Nested`). The stack of rules, the records of how many rules were pushed, the active places and
the depth all belong to the entered directories of the levels, in the same order (`Stacked`).

A step keeps this (`Stacked.step`): entering puts a level in front and leaving takes one away.
`Traversal.loop_invariant` says what it means for a whole traversal. No directory pops more rules
than there are, each pops its own, and in the end nothing is left.
-/

namespace TreeSieve

namespace Traversal

variable (o : Options) (d : Disk)

/-! ## The rules of a directory -/

/-- The rules of a directory's rule file, newest first. There are none if the file is not read. -/
def ownRules (f : Frame) : List Rule :=
  match ruleFile o d f with
  | .ok found => ((found.map (·.1)).getD []).reverse
  | .error _ => []

/-- The rules that lie on the stack before a directory is entered, newest first. Only the root has
some, the patterns. -/
def seeds (f : Frame) : List Rule :=
  if f.above = none then (RuleStack.declared f.absolute o.patterns).reverse else []

/-- The rules that lie on the stack for a directory, newest first. -/
def declaredIn (f : Frame) : List Rule := ownRules o d f ++ seeds o f

variable {o d}

theorem openScope_rules (s : RuleStack) (f : Frame) : ∃ own last,
    own.map (·.rule) = ownRules o d f ∧
    (openScope o d s f).rules =
      { rules := own ++ s.rules
        counts := (f.key, (f.seeded + own.length : Nat)) :: s.counts.filter (·.1 ≠ f.key)
        lastPriority := last } := by
  unfold openScope ownRules
  cases ruleFile o d f with
  | error e => exact ⟨[], s.lastPriority, rfl, rfl⟩
  | ok found =>
    obtain ⟨own, hrules, hmap, -, -, hcounts⟩ :=
      RuleStack.rules_pushAll s ((found.map (·.1)).getD [])
    have hlen : own.length = ((found.map (·.1)).getD []).length := by
      rw [← List.length_map (f := RankedRule.rule), hmap, List.length_reverse]
    refine ⟨own, (s.pushAll ((found.map (·.1)).getD [])).lastPriority, hmap, ?_⟩
    simp only [RuleStack.record, hrules, hcounts, hlen]

/-! ## Levels -/

/-- An entered directory and the subdirectories of it that wait in front of it. -/
structure Level where
  waiting : List Frame
  frame : Frame

namespace Level

/-- The part of the queue that a level takes up. -/
def frames (l : Level) : List Frame := l.waiting ++ [l.frame]

end Level

/-- Where the entered directories of levels are. -/
def places (ls : List Level) : List Location := ls.flatMap (·.frame.identity.toList)

variable (o d) in
/-- Levels that lie one in the other, the deepest first. Each directory waited in the next level
before it was entered. -/
inductive Nested (root : Text) : List Level → Prop
  | nil : Nested root []
  | root {frames : List Frame}
      (hw : ∀ g ∈ frames, Ready o d (rootFrame o d root).opened
        (places [⟨frames, (rootFrame o d root).opened⟩]) g) :
      Nested root [⟨frames, (rootFrame o d root).opened⟩]
  | inner {l : Level} {ls : List Level} {f : Frame} {frames : List Frame}
      (h : Nested root (l :: ls)) (hf : Ready o d l.frame (places (l :: ls)) f)
      (hw : ∀ g ∈ frames, Ready o d f.opened (places (⟨frames, f.opened⟩ :: l :: ls)) g) :
      Nested root (⟨frames, f.opened⟩ :: l :: ls)

namespace Nested

variable {root : Text} {l : Level} {ls : List Level}

theorem entered (h : Nested o d root ls) : ∀ l ∈ ls, l.frame.entered = true := by
  induction h with
  | nil => simp
  | root => simp
  | inner _ _ _ ih => exact List.forall_mem_cons.2 ⟨rfl, ih⟩

theorem ready (h : Nested o d root (l :: ls)) :
    ∀ g ∈ l.waiting, Ready o d l.frame (places (l :: ls)) g := by
  cases h with
  | root hw => exact hw
  | inner _ _ hw => exact hw

theorem tail (h : Nested o d root (l :: ls)) : Nested o d root ls := by
  cases h with
  | root => exact .nil
  | inner h => exact h

/-- Every directory in the levels waited or is the root. -/
theorem waiting (h : Nested o d root ls) : ∀ l ∈ ls, ∀ g ∈ l.waiting,
    g.entered = false ∧ g.above = some l.frame.key := by
  induction h with
  | nil => simp
  | root hw =>
    intro l hl g hg
    obtain rfl := List.mem_singleton.1 hl
    exact ⟨(hw g hg).entered, (hw g hg).above⟩
  | inner _ _ hw ih =>
    exact List.forall_mem_cons.2 ⟨fun g hg => ⟨(hw g hg).entered, (hw g hg).above⟩, ih⟩

theorem chain (h : Nested o d root ls) :
    ls.IsChain fun l m => l.frame.above = some m.frame.key := by
  induction h with
  | nil => exact .nil
  | root => exact .singleton _
  | inner _ hf _ ih => exact .cons_cons hf.above ih

theorem last (h : Nested o d root ls) :
    ∀ l ∈ ls.getLast?, l.frame = (rootFrame o d root).opened := by
  induction h with
  | nil => simp
  | root => simp
  | inner _ _ _ ih => simpa using ih

theorem identity (h : Nested o d root ls) :
    ∀ l ∈ ls, l.frame.identity = Place.identity? o d l.frame.absolute := by
  induction h with
  | nil => simp
  | root => exact List.forall_mem_singleton.2 rfl
  | inner _ hf _ ih => exact List.forall_mem_cons.2 ⟨hf.identity, ih⟩

/-- No place is walked twice at a time. -/
theorem nodup_places (h : Nested o d root ls) : (places ls).Nodup := by
  have hone : ∀ x : Option Location, x.toList.Nodup := by
    intro x
    cases x <;> simp
  induction h with
  | nil => exact List.nodup_nil
  | root => simpa [places] using hone _
  | inner _ hf _ ih =>
    refine (hone _).append ih (List.disjoint_left.2 ?_)
    intro x hx
    exact hf.fresh x (Option.mem_toList.1 hx)

end Nested

/-! ## States that consist of levels -/

variable (o d) in
/-- A state that consists of levels. -/
structure Stacked (t : Traversal) (ls : List Level) : Prop where
  queue : t.queue = ls.flatMap Level.frames
  rules : t.rules.rules.map (·.rule) = ls.flatMap fun l => declaredIn o d l.frame
  counts : t.rules.counts = ls.map fun l => (l.frame.key, ((declaredIn o d l.frame).length : Int))
  active : t.active = places ls
  depth : t.depth = ls.length

variable (o d) in
/-- A state in which a directory is about to be entered, inside of levels. -/
structure Arrives (t : Traversal) (f : Frame) (ls : List Level) : Prop where
  queue : t.queue = f :: ls.flatMap Level.frames
  seeded : f.seeded = (seeds o f).length
  rules : t.rules.rules.map (·.rule) = seeds o f ++ ls.flatMap fun l => declaredIn o d l.frame
  counts : t.rules.counts = ls.map fun l => (l.frame.key, ((declaredIn o d l.frame).length : Int))
  new : ∀ l ∈ ls, l.frame.key ≠ f.key
  active : t.active = places ls
  depth : t.depth = ls.length

/-- **Entering a directory** makes a level of it. -/
theorem Arrives.enter (hd : d.WellFormed) {t : Traversal} {f : Frame} {ls : List Level}
    (h : Arrives o d t f ls) : ∃ frames,
      (∀ g ∈ frames, Ready o d f.opened (places (⟨frames, f.opened⟩ :: ls)) g) ∧
      Stacked o d (Traversal.enter o d t f (ls.flatMap Level.frames)).2
        (⟨frames, f.opened⟩ :: ls) := by
  obtain ⟨frames, hready, -, hqueue, hrules, hactive, hdepth⟩ :=
    enter_snd (o := o) hd t f (ls.flatMap Level.frames)
  obtain ⟨own, last, hown, hopen⟩ := openScope_rules (o := o) (d := d) t.rules f
  have hold : t.rules.counts.filter (·.1 ≠ f.key) = t.rules.counts := by
    rw [h.counts]
    apply List.filter_eq_self.2
    intro c hc
    obtain ⟨l, hl, rfl⟩ := List.mem_map.1 hc
    simpa using h.new l hl
  have hlen : f.seeded + own.length = (declaredIn o d f).length := by
    rw [declaredIn, List.length_append, ← hown, List.length_map, h.seeded, Nat.add_comm]
  rw [h.active] at hready hactive
  refine ⟨frames, fun g hg => (hready g hg).opened, ?_, ?_, ?_, hactive, ?_⟩
  · rw [hqueue, List.flatMap_cons, Level.frames, List.append_assoc]
    rfl
  · rw [hrules, hopen, List.map_append, hown, h.rules, List.flatMap_cons, ← List.append_assoc]
    rfl
  · rw [hrules, hopen, hold, hlen, h.counts]
    rfl
  · rw [hdepth, h.depth]
    rfl

/-- At the start the root is about to be entered. -/
theorem arrives_start (root : Text) :
    Arrives o d (start o d root) (rootFrame o d root) [] := by
  obtain ⟨new, hrules, hmap, -, -, hcounts⟩ :=
    RuleStack.rules_pushAll {} (RuleStack.declared (d.absolute root) o.patterns)
  refine ⟨rfl, ?_, ?_, ?_, by simp, rfl, rfl⟩
  · exact List.length_reverse.symm
  · rw [start, hrules, List.append_nil, hmap]
    exact (List.append_nil _).symm
  · rw [start, hcounts]
    rfl

namespace Stacked

variable {root : Text} {t : Traversal} {l : Level} {ls : List Level}

/-- The first waiting directory is about to be entered. -/
theorem arrives {f : Frame} {frames : List Frame} {frame : Frame}
    (h : Stacked o d t (⟨f :: frames, frame⟩ :: ls)) (hkeys : (t.queue.map Frame.key).Nodup)
    (hf : Ready o d frame (places (⟨f :: frames, frame⟩ :: ls)) f) :
    Arrives o d t f (⟨frames, frame⟩ :: ls) := by
  have hseeds : seeds o f = [] := by
    rw [seeds, hf.above]
    rfl
  refine ⟨h.queue, ?_, ?_, h.counts, ?_, h.active, h.depth⟩
  · rw [hseeds, hf.seeded]
    rfl
  · rw [hseeds]
    exact h.rules
  · have hq : t.queue = f :: (⟨frames, frame⟩ :: ls : List Level).flatMap Level.frames := h.queue
    rw [hq, List.map_cons, List.nodup_cons] at hkeys
    intro m hm heq
    apply hkeys.1
    rw [← heq]
    exact List.mem_map_of_mem (List.mem_flatMap.2 ⟨m, hm, by simp [Level.frames]⟩)

/-- The number of rules that a directory pushed is recorded. -/
theorem recorded (h : Stacked o d t (l :: ls)) :
    t.rules.recorded l.frame.key = ((declaredIn o d l.frame).length : Int) := by
  rw [RuleStack.recorded, h.counts, List.map_cons, List.lookup_cons_self]
  rfl

theorem length_declaredIn_le (h : Stacked o d t (l :: ls)) :
    (declaredIn o d l.frame).length ≤ t.rules.rules.length := by
  rw [← List.length_map (f := RankedRule.rule), h.rules, List.flatMap_cons, List.length_append]
  exact Nat.le_add_right _ _

/-- A directory that is left never pops more rules than there are. -/
theorem popped (h : Stacked o d t (l :: ls)) :
    t.rules.popped l.frame.key = .ok ((declaredIn o d l.frame).length : Int) := by
  rw [RuleStack.popped, h.recorded, if_pos (Int.ofNat_le.2 h.length_declaredIn_le)]

/-- **Leaving a directory** takes its level away. -/
theorem leave {frame : Frame} (h : Stacked o d t (⟨[], frame⟩ :: ls))
    (hkeys : (t.queue.map Frame.key).Nodup) (hplaces : (places (⟨[], frame⟩ :: ls)).Nodup) :
    Stacked o d (Traversal.leave o t frame (ls.flatMap Level.frames)) ls := by
  refine ⟨rfl, ?_, ?_, ?_, ?_⟩
  · rw [Traversal.leave, RuleStack.leave, h.recorded, Int.toNat_natCast, List.map_drop, h.rules,
      List.flatMap_cons, List.drop_left]
  · have hq : t.queue = frame :: ls.flatMap Level.frames := h.queue
    rw [hq, List.map_cons, List.nodup_cons] at hkeys
    have hold : (ls.map fun l => (l.frame.key, ((declaredIn o d l.frame).length : Int))).filter
        (·.1 ≠ frame.key) =
        ls.map fun l => (l.frame.key, ((declaredIn o d l.frame).length : Int)) := by
      apply List.filter_eq_self.2
      intro c hc
      obtain ⟨l, hl, rfl⟩ := List.mem_map.1 hc
      have hne : l.frame.key ≠ frame.key := by
        intro heq
        apply hkeys.1
        rw [← heq]
        exact List.mem_map_of_mem (List.mem_flatMap.2 ⟨l, hl, by simp [Level.frames]⟩)
      simpa using hne
    rw [Traversal.leave, RuleStack.leave, h.counts, List.map_cons,
      List.filter_cons_of_neg (by simp), hold]
  -- No other directory in the levels is where this one is.
  · have hsplit : places (⟨[], frame⟩ :: ls) = frame.identity.toList ++ places ls := rfl
    have hothers : (places ls).filter (frame.identity ≠ some ·) = places ls := by
      apply List.filter_eq_self.2
      intro x hx
      have hdisjoint := (List.nodup_append.1 (hsplit ▸ hplaces)).2.2
      simpa using fun heq => hdisjoint x (Option.mem_toList.2 heq) x hx rfl
    rw [Traversal.leave, h.active, hsplit, List.filter_append, hothers]
    cases frame.identity <;> simp
  · rw [Traversal.leave, h.depth]
    rfl

end Stacked

/-- Fewer directories wait in the first level. -/
theorem Nested.of_cons {root : Text} {g frame : Frame} {frames : List Frame} {ls : List Level}
    (h : Nested o d root (⟨g :: frames, frame⟩ :: ls)) :
    Nested o d root (⟨frames, frame⟩ :: ls) := by
  cases h with
  | root hw => exact .root fun x hx => hw x (List.mem_cons_of_mem g hx)
  | inner h hf hw => exact .inner h hf fun x hx => hw x (List.mem_cons_of_mem g hx)

/-- **A step keeps the levels**: it puts one in front or takes the first one away. -/
theorem Stacked.step (hd : d.WellFormed) {root : Text} {t : Traversal} {ls : List Level}
    (hn : Nested o d root ls) (h : Stacked o d t ls) (hkeys : (t.queue.map Frame.key).Nodup) :
    ∃ ms, Nested o d root ms ∧ Stacked o d (t.step o d).2 ms := by
  cases ls with
  | nil =>
    rw [step_of_nil h.queue]
    exact ⟨[], hn, h⟩
  | cons l ls =>
    obtain ⟨waiting, frame⟩ := l
    cases waiting with
    | nil =>
      have hq : t.queue = frame :: ls.flatMap Level.frames := h.queue
      rw [step_of_entered hq (hn.entered _ List.mem_cons_self)]
      exact ⟨ls, hn.tail, h.leave hkeys hn.nodup_places⟩
    | cons f frames =>
      have hf := hn.ready f List.mem_cons_self
      have harr := h.arrives hkeys hf
      rw [step_of_waiting harr.queue hf.entered]
      obtain ⟨below, hready, hstacked⟩ := harr.enter hd
      exact ⟨_, .inner hn.of_cons hf hready, hstacked⟩

/-- At every head of the loop but the first the state consists of levels. -/
theorem exists_levels (hd : d.WellFormed) (root : Text) (n : Nat) :
    ∃ ls, Nested o d root ls ∧ Stacked o d (loopHead o d root (n + 1)) ls := by
  induction n with
  | zero =>
    have hstart : (start o d root).queue = [rootFrame o d root] := queue_start o d root
    obtain ⟨frames, hready, hstacked⟩ := (arrives_start (o := o) (d := d) root).enter hd
    refine ⟨_, .root hready, ?_⟩
    rw [loopHead_succ, loopHead, Function.iterate_zero_apply, step_of_waiting hstart rfl]
    exact hstacked
  | succ n ih =>
    obtain ⟨ls, hn, hs⟩ := ih
    rw [loopHead_succ]
    exact hs.step hd hn (Frame.nodup_keys (history hd root (n + 1)).nodup_names_queue)

/-- A directory that is met waiting is about to be entered, inside of levels. Only the root has
rules before. -/
theorem exists_arrives (hd : d.WellFormed) (root : Text) {n : Nat} {f : Frame} {rest : List Frame}
    (hq : (loopHead o d root n).queue = f :: rest) (hf : f.entered = false) :
    ∃ ls, Arrives o d (loopHead o d root n) f ls ∧ (∀ l, f.identity = some l → l ∉ places ls) ∧
      (rest ≠ [] → f.seeded = 0) := by
  cases n with
  | zero =>
    rw [loopHead, Function.iterate_zero_apply] at hq ⊢
    rw [queue_start] at hq
    obtain ⟨rfl, rfl⟩ := List.cons.inj hq
    exact ⟨[], arrives_start root, fun _ _ => List.not_mem_nil, fun h => absurd rfl h⟩
  | succ n =>
    obtain ⟨ls, hn, hs⟩ := exists_levels (o := o) hd root n
    cases ls with
    | nil =>
      rw [hs.queue] at hq
      cases hq
    | cons l ls =>
      obtain ⟨waiting, frame⟩ := l
      have hqueue := hs.queue.symm.trans hq
      cases waiting with
      | nil =>
        obtain ⟨rfl, -⟩ := List.cons.inj hqueue
        rw [hn.entered _ List.mem_cons_self] at hf
        cases hf
      | cons g frames =>
        obtain ⟨rfl, -⟩ := List.cons.inj hqueue
        have hready := hn.ready g List.mem_cons_self
        have hkeys := Frame.nodup_keys (history hd (o := o) root (n + 1)).nodup_names_queue
        exact ⟨_, hs.arrives hkeys hready, hready.fresh, fun _ => hready.seeded⟩

/-! ## The whole loop -/

variable (o d) in
/-- What holds at the head of the loop between the entering and the leaving of the root. The levels
are the records `U₁, e₁, …, Uₖ, eₖ` of the queue, with `eᵢ` entered and `Uᵢ` waiting. -/
structure LoopShape (root : Text) (t : Traversal) (ls : List Level) : Prop where
  queue : t.queue = ls.flatMap Level.frames
  entered : ∀ l ∈ ls, l.frame.entered = true
  waiting : ∀ l ∈ ls, ∀ g ∈ l.waiting, g.entered = false ∧ g.above = some l.frame.key
  above : ls.IsChain fun l m => l.frame.above = some m.frame.key
  root : ls.getLast?.map Level.frame = some (rootFrame o d root).opened
  keys : (t.queue.map Frame.key).Nodup
  depth : t.depth = ls.length
  counts : t.rules.counts = ls.map fun l => (l.frame.key, ((declaredIn o d l.frame).length : Int))
  total : (t.rules.counts.map (·.2)).sum = t.rules.rules.length
  rules : t.rules.rules.map (·.rule) = ls.flatMap fun l => declaredIn o d l.frame
  active : t.active = ls.flatMap fun l => (Place.identity? o d l.frame.absolute).toList
  distinct : t.active.Nodup

/-- Nothing is left of a traversal. -/
structure Cleared (t : Traversal) : Prop where
  queue : t.queue = []
  rules : t.rules.rules = []
  counts : t.rules.counts = []
  active : t.active = []
  depth : t.depth = 0

section Stacked

variable {root : Text} {t : Traversal} {ls : List Level} (h : Stacked o d t ls)

include h

/-- The recorded numbers of rules add up to the number of rules. -/
theorem Stacked.total : (t.rules.counts.map (·.2)).sum = t.rules.rules.length := by
  rw [← List.length_map (f := RankedRule.rule), h.rules, h.counts, List.map_map,
    List.length_flatMap]
  clear h
  induction ls with
  | nil => rfl
  | cons l ls ih => simp [← ih]

theorem Stacked.eq_nil_iff : t.queue = [] ↔ ls = [] := by
  rw [h.queue]
  cases ls <;> simp [Level.frames]

theorem Stacked.loopShape (hn : Nested o d root ls) (hkeys : (t.queue.map Frame.key).Nodup)
    (hne : ls ≠ []) : LoopShape o d root t ls where
  queue := h.queue
  entered := hn.entered
  waiting := hn.waiting
  above := hn.chain
  root := by
    rw [List.getLast?_eq_some_getLast hne, Option.map_some,
      hn.last _ (List.getLast?_eq_some_getLast hne)]
  keys := hkeys
  depth := h.depth
  counts := h.counts
  total := h.total
  rules := h.rules
  active := by
    rw [h.active]
    exact List.flatMap_congr fun l hl => by rw [hn.identity l hl]
  distinct := h.active ▸ hn.nodup_places

end Stacked

theorem Stacked.cleared {t : Traversal} (h : Stacked o d t []) : Cleared t where
  queue := h.queue
  rules := List.map_eq_nil_iff.1 h.rules
  counts := h.counts
  active := h.active
  depth := h.depth

theorem Leads.eq_iterate {n : Nat} {t u : Traversal} {events : List Event}
    (h : Leads o d n t events u) : u = (fun t => (t.step o d).2)^[n] t := by
  induction h with
  | refl t => rfl
  | step _ _ ih => exact ih

/-- Enough steps lead from the start to an empty queue, and show what the recursion shows. -/
theorem leads_start (o : Options) {d : Disk} (hd : d.WellFormed) (root : Text) :
    ∃ n events u, n ≤ enoughSteps d.root.size ∧ Leads o d n (start o d root) events u ∧
      u.queue = [] ∧
      shown events = traced o ((Context.root o d root).walk o d o.descends (d.root.size + 1)) := by
  obtain ⟨f, hq, -, hm⟩ := matches_start o d root
  obtain ⟨n, events, last, hn, -, hleads, hshown⟩ :=
    leads_after hd _ (Place.shallow_root hd root (Nat.lt_succ_self _)) hm hq
  exact ⟨n, events, _, hn, hleads, rfl, hshown⟩

/-- The queue is empty after enough steps. -/
theorem queue_loopHead_enoughSteps (hd : d.WellFormed) (root : Text) :
    (loopHead o d root (enoughSteps d.root.size)).queue = [] := by
  obtain ⟨n, events, u, hn, hleads, hu, -⟩ := leads_start o hd root
  have hqueue : (loopHead o d root n).queue = [] := by
    rw [loopHead, ← hleads.eq_iterate, hu]
  rw [loopHead_of_finished hqueue hn, hqueue]

end Traversal

/-- A run that its receiver does not end has come to a head of the loop. -/
theorem Walk.run_eq_loopHead {σ : Type} {r : Receiver σ} (hr : r.Steady) {o : Options} {d : Disk}
    {steps : Nat} {t u : Traversal} {s : σ} (hs : r.disk s = d)
    (hrun : (run o r steps t s).2 = some u) : u = (fun t => (t.step o d).2)^[steps] t := by
  induction steps generalizing t s with
  | zero => exact (Option.some.inj hrun).symm
  | succ steps ih =>
    rw [run] at hrun
    split at hrun
    · next hempty =>
      have hfix : (t.step o d).2 = t := by rw [Traversal.step_of_nil (List.isEmpty_iff.1 hempty)]
      rw [Function.iterate_fixed (f := fun t : Traversal => (t.step o d).2) hfix]
      exact (Option.some.inj hrun).symm
    · rw [hs] at hrun
      have hdisk := hr.feed s (t.step o d).1
      simp only at hrun
      cases hfeed : r.feed s (t.step o d).1 with
      | mk s' goesOn =>
        rw [hfeed, hs] at hdisk
        rw [hfeed] at hrun
        cases goesOn with
        | false => cases hrun
        | true => exact ih hdisk hrun

namespace Traversal

variable {o : Options} {d : Disk}

/-- Leaving the directory at the front of the queue takes away its own rules and no others. -/
theorem leave_own_rules (hd : d.WellFormed) (root : Text) {n : Nat} {f : Frame} {rest : List Frame}
    (hq : (loopHead o d root n).queue = f :: rest) (hf : f.entered = true) :
    (loopHead o d root n).rules.popped f.key = .ok ((declaredIn o d f).length : Int) ∧
      ∃ own, own.map (·.rule) = declaredIn o d f ∧
        (loopHead o d root n).rules.rules = own ++ (loopHead o d root (n + 1)).rules.rules := by
  obtain ⟨n, rfl⟩ : ∃ k, n = k + 1 := by
    cases n with
    | zero =>
      rw [loopHead, Function.iterate_zero_apply, queue_start] at hq
      obtain ⟨rfl, -⟩ := List.cons.inj hq
      cases hf
    | succ n => exact ⟨n, rfl⟩
  obtain ⟨ls, hn, hs⟩ := exists_levels (o := o) hd root n
  cases ls with
  | nil =>
    rw [hs.queue] at hq
    cases hq
  | cons l ls =>
    obtain ⟨waiting, frame⟩ := l
    have hqueue := hs.queue.symm.trans hq
    cases waiting with
    | cons g frames =>
      obtain ⟨rfl, -⟩ := List.cons.inj hqueue
      rw [(hn.ready g List.mem_cons_self).entered] at hf
      cases hf
    | nil =>
      obtain ⟨rfl, hrest⟩ := List.cons.inj hqueue
      refine ⟨hs.popped, (loopHead o d root (n + 1)).rules.rules.take (declaredIn o d frame).length,
        ?_, ?_⟩
      · rw [List.map_take, hs.rules, List.flatMap_cons, List.take_left]
      · rw [loopHead_succ o d root (n + 1), step_of_entered hq hf, leave, RuleStack.leave,
          hs.recorded, Int.toNat_natCast, List.take_append_drop]

/-- **Invariant of the loop.** At every head of the loop, from the entering of the root until it is
left, the state has the shape of `LoopShape`. No directory that is left pops more rules than there
are, and each takes away exactly its own. A run with any receiver that does not end it is at a head
of the loop; when it is over nothing is left, and every directory that has ever been in the queue
has been entered once and left once. -/
theorem loop_invariant (hd : d.WellFormed) (root : Text) :
    (∀ n, 0 < n → (loopHead o d root n).queue ≠ [] →
      ∃ ls, LoopShape o d root (loopHead o d root n) ls) ∧
    (∀ n f rest, (loopHead o d root n).queue = f :: rest → f.entered = true →
      (loopHead o d root n).rules.popped f.key = .ok ((declaredIn o d f).length : Int) ∧
      ∃ own, own.map (·.rule) = declaredIn o d f ∧
        (loopHead o d root n).rules.rules = own ++ (loopHead o d root (n + 1)).rules.rules) ∧
    (∀ (σ : Type) (r : Receiver σ), r.Steady → ∀ s, r.disk s = d → ∀ steps u,
      (Walk.run o r steps (start o d root) s).2 = some u → u = loopHead o d root steps) ∧
    Cleared (loopHead o d root (enoughSteps d.root.size)) ∧
    ∀ n, ∀ g ∈ (loopHead o d root n).queue,
      ((enteredBy o d root (enoughSteps d.root.size)).map Frame.key).count g.key = 1 ∧
      ((leftBy o d root (enoughSteps d.root.size)).map Frame.key).count g.key = 1 := by
  have hend : (loopHead o d root (enoughSteps d.root.size)).queue = [] :=
    queue_loopHead_enoughSteps hd root
  refine ⟨?_, fun n f rest => leave_own_rules hd root, ?_, ?_, fun n g => count_met hd hend⟩
  · intro n hpos hne
    obtain ⟨n, rfl⟩ : ∃ k, n = k + 1 := ⟨n - 1, by omega⟩
    obtain ⟨ls, hn, hs⟩ := exists_levels (o := o) hd root n
    have hkeys := Frame.nodup_keys (history hd (o := o) root (n + 1)).nodup_names_queue
    exact ⟨ls, hs.loopShape hn hkeys fun hnil => hne (hs.eq_nil_iff.2 hnil)⟩
  · intro σ r hr s hs steps u hrun
    exact Walk.run_eq_loopHead hr hs hrun
  · have hsize : enoughSteps d.root.size = enoughSteps d.root.size - 1 + 1 := by
      have := two_le_stepsWithin d.root.size (d.root.size + 1)
      rw [enoughSteps]
      omega
    rw [hsize] at hend ⊢
    obtain ⟨ls, -, hs⟩ := exists_levels (o := o) hd root (enoughSteps d.root.size - 1)
    obtain rfl := hs.eq_nil_iff.1 hend
    exact hs.cleared

/-- A directory with one rule of its own, below a root with a pattern. It is left with the third
step. -/
theorem loop_invariant_pattern_and_rule_file :
    let o : Options := { ruleFileName := some "r", patterns := ["*.a"] }
    let d : Disk := ⟨.directory [("x", .directory [("r", .file (Utf8.encode "*.o"))])], [], []⟩
    (∃ ls, LoopShape o d "/" (loopHead o d "/" 2) ls) ∧
      (loopHead o d "/" 2).rules.popped "/x" = .ok 1 ∧
      Cleared (loopHead o d "/" (enoughSteps d.root.size)) := by
  intro o d
  have hd : d.WellFormed := by decide
  obtain ⟨hshape, -, -, hcleared, -⟩ := loop_invariant (o := o) hd "/"
  have hq : (loopHead o d "/" 2).queue.map Frame.key = ["/x", ""] := by cbv
  refine ⟨hshape 2 (by decide) ?_, ?_, hcleared⟩
  · intro hnil
    rw [hnil] at hq
    cases hq
  · cbv

end Traversal

end TreeSieve
