import TreeSieve.Proofs.Delivery

/-!
# The directories that a traversal meets

`Traversal.loopHead o d root n` is the state of a traversal after `n` steps. The frame at the front
of its queue is the one that the next step enters or leaves, and `Traversal.met` lists these frames.

`History` is an invariant of the frames met so far and the queue. No directory is put into the
queue twice, because it gets there only from the directory in which it lies, and that one has been
entered just once. So in the end everything that was ever in the queue has been entered once and
left once (`Traversal.count_met`).
-/

namespace TreeSieve

open TreeSieve.Sym

/-- The names of a path do not tell how many slashes are at its end. -/
theorem Path.names_trimmed (p : Text) : Path.names (Path.trimmed p) = Path.names p := by
  induction p using List.reverseRecOn with
  | nil => rfl
  | append_singleton p c ih =>
    by_cases hc : c = slash
    · have htrim : Path.trimmed (p ++ [c]) = Path.trimmed p := by
        simp [Path.trimmed, Text.dropEndWhile, hc]
      have hnames : Path.names (p ++ [c]) = Path.names p := by
        have hpieces : Text.pieces slash (p ++ [slash]) = Text.pieces slash p ++ [[]] :=
          Text.pieces_append_cons slash p []
        rw [hc, Path.names, hpieces, List.filter_append, Path.names]
        exact List.append_nil _
      rw [htrim, ih, hnames]
    · rw [Path.trimmed_of_getLast? (by simpa using hc)]

/-- The names of a directory's path. -/
def Frame.names (f : Frame) : List Text := Path.names f.absolute

theorem Frame.names_eq (f : Frame) : f.names = Path.names f.key :=
  (Path.names_trimmed f.absolute).symm

theorem Frame.nodup_keys {fs : List Frame} (h : (fs.map Frame.names).Nodup) :
    (fs.map Frame.key).Nodup := by
  have heq : fs.map Frame.names = (fs.map Frame.key).map Path.names := by
    rw [List.map_map]
    exact List.map_congr_left fun f _ => f.names_eq
  rw [heq] at h
  exact h.of_map _

/-- A frame after its directory has been entered. -/
def Frame.opened (f : Frame) : Frame := { f with entered := true }

@[simp] theorem Frame.opened_entered (f : Frame) : f.opened.entered = true := rfl

@[simp] theorem Frame.opened_key (f : Frame) : f.opened.key = f.key := rfl

namespace Traversal

/-! ## Entering and leaving in the queue -/

variable (o : Options) (d : Disk)

/-- A frame that waits to be entered, directly below the directory of another frame. Where it leads
is none of the places where the walk is. -/
structure Ready (f : Frame) (active : List Location) (g : Frame) : Prop where
  entered : g.entered = false
  above : g.above = some f.key
  seeded : g.seeded = 0
  absolute : ∃ name, Path.IsName name ∧ g.absolute = Path.join f.absolute name
  identity : g.identity = Place.identity? o d g.absolute
  fresh : ∀ l, g.identity = some l → l ∉ active

variable {o d}

theorem Ready.names {f g : Frame} {active : List Location} (h : Ready o d f active g) :
    ∃ name, g.names = f.names ++ [name] := by
  obtain ⟨name, hname, habs⟩ := h.absolute
  exact ⟨name, by rw [Frame.names, habs, Path.names_join hname, Frame.names]⟩

theorem Ready.opened {f g : Frame} {active : List Location} (h : Ready o d f active g) :
    Ready o d f.opened active g :=
  ⟨h.entered, h.above, h.seeded, h.absolute, h.identity, h.fresh⟩

/-- The frame of a subdirectory is ready. -/
theorem ready_of_subframe? {t : Traversal} {f g : Frame} {e : Entry} (hname : Path.IsName e.name)
    (h : subframe? o d t f e = some g) :
    Ready o d f t.active g ∧ g.names = f.names ++ [e.name] := by
  unfold subframe? at h
  split at h
  · rw [schedule_fst o d t f (q := ⟨f.path, f.absolute, t.active, t.depth⟩) rfl rfl rfl] at h
    split at h
    · obtain ⟨q, hq, rfl⟩ := Option.map_eq_some_iff.1 h
      obtain ⟨-, habs, -, -, hloop⟩ := Place.below?_eq_some hq
      refine ⟨⟨rfl, rfl, rfl, ⟨e.name, hname, habs⟩, rfl, hloop⟩, ?_⟩
      rw [Frame.names, frameOf, habs, Path.names_join hname, Frame.names]
    · cases h
  · cases h

theorem scan_of_openScope {rules : RuleStack} {f : Frame} {children : List Entry}
    (h : (openScope o d rules f).children = .ok children) :
    d.scan f.absolute f.path o.followLinks = .ok children := by
  unfold openScope at h
  cases hfile : ruleFile o d f with
  | error e =>
    rw [hfile] at h
    cases h
  | ok found =>
    rw [hfile] at h
    cases hscan : d.scan f.absolute f.path o.followLinks with
    | error fault =>
      rw [hscan] at h
      cases h
    | ok listed =>
      rw [hscan] at h
      cases h
      rfl

/-- Entering a directory puts frames that are ready in front of its own. -/
theorem enter_snd (hd : d.WellFormed) (t : Traversal) (f : Frame) (rest : List Frame) :
    ∃ frames, (∀ g ∈ frames, Ready o d f (f.identity.toList ++ t.active) g) ∧
      (frames.map Frame.names).Nodup ∧
      (enter o d t f rest).2.queue = frames ++ f.opened :: rest ∧
      (enter o d t f rest).2.rules = (openScope o d t.rules f).rules ∧
      (enter o d t f rest).2.active = f.identity.toList ++ t.active ∧
      (enter o d t f rest).2.depth = t.depth + 1 := by
  unfold enter
  cases hscope : (openScope o d t.rules f).children with
  | error e =>
    simp only [hscope]
    exact ⟨[], by simp, List.nodup_nil, rfl, by simp⟩
  | ok children =>
    have hscan := scan_of_openScope hscope
    simp only [hscope, frames_foldl_visit, List.nil_append]
    refine ⟨_, ?_, ?_, rfl, by simp⟩
    · intro g hg
      obtain ⟨e, he, hsub⟩ := List.mem_filterMap.1 hg
      exact (ready_of_subframe? (Disk.isName_of_mem_scan hd hscan he) hsub).1
    · have hnames : children.Pairwise fun e e' => e.name ≠ e'.name :=
        List.pairwise_map.1 (Disk.nodup_names_scan hd hscan)
      rw [List.Nodup, List.pairwise_map, List.pairwise_filterMap]
      apply hnames.imp_of_mem
      intro e e' he he' hne g hg g' hg' heq
      rw [(ready_of_subframe? (Disk.isName_of_mem_scan hd hscan he) hg).2,
        (ready_of_subframe? (Disk.isName_of_mem_scan hd hscan he') hg').2] at heq
      exact hne (by simpa using heq)

theorem step_of_nil {t : Traversal} (hq : t.queue = []) : t.step o d = ([], t) := by
  rw [step, hq]

theorem step_of_waiting {t : Traversal} {f : Frame} {rest : List Frame} (hq : t.queue = f :: rest)
    (hf : f.entered = false) : t.step o d = enter o d t f rest := by
  rw [step, hq]
  simp [hf]

theorem step_of_entered {t : Traversal} {f : Frame} {rest : List Frame} (hq : t.queue = f :: rest)
    (hf : f.entered = true) : t.step o d = ([], leave o t f rest) := by
  rw [step, hq]
  simp [hf]

/-! ## What has been met -/

section Met

variable (o d)

/-- The frame of the root as it waits at the start. -/
def rootFrame (root : Text) : Frame :=
  { path := root
    absolute := d.absolute root
    above := none
    excludedBy := 0
    identity := Place.identity? o d (d.absolute root)
    seeded := (RuleStack.declared (d.absolute root) o.patterns).length
    entered := false }

theorem queue_start (root : Text) : (start o d root).queue = [rootFrame o d root] := rfl

/-- The state of a traversal after a number of steps. -/
def loopHead (root : Text) (n : Nat) : Traversal :=
  (fun t => (t.step o d).2)^[n] (start o d root)

theorem loopHead_succ (root : Text) (n : Nat) :
    loopHead o d root (n + 1) = ((loopHead o d root n).step o d).2 :=
  Function.iterate_succ_apply' ..

/-- The frames that a number of steps has found at the front of the queue. -/
def met (root : Text) (n : Nat) : List Frame :=
  (List.range n).filterMap fun i => (loopHead o d root i).queue.head?

theorem met_succ (root : Text) (n : Nat) :
    met o d root (n + 1) = met o d root n ++ (loopHead o d root n).queue.head?.toList := by
  rw [met, List.range_succ, List.filterMap_append, met]
  cases h : (loopHead o d root n).queue.head? <;> simp [h]

end Met

/-! ## No directory waits twice -/

/-- The frames whose directories have not been entered. -/
def waiting (frames : List Frame) : List Frame := frames.filter (!·.entered)

/-- The frames whose directories have been entered. -/
def entered (frames : List Frame) : List Frame := frames.filter (·.entered)

theorem waiting_append (fs gs : List Frame) : waiting (fs ++ gs) = waiting fs ++ waiting gs :=
  List.filter_append ..

theorem entered_append (fs gs : List Frame) : entered (fs ++ gs) = entered fs ++ entered gs :=
  List.filter_append ..

theorem waiting_of_ready {f : Frame} {active : List Location} {frames : List Frame}
    (h : ∀ g ∈ frames, Ready o d f active g) : waiting frames = frames :=
  List.filter_eq_self.2 fun g hg => by simp [(h g hg).entered]

theorem entered_of_ready {f : Frame} {active : List Location} {frames : List Frame}
    (h : ∀ g ∈ frames, Ready o d f active g) : entered frames = [] :=
  List.filter_eq_nil_iff.2 fun g hg => by simp [(h g hg).entered]

theorem waiting_cons (f : Frame) (fs : List Frame) :
    waiting (f :: fs) = if f.entered then waiting fs else f :: waiting fs := by
  rw [waiting, List.filter_cons, waiting]
  cases f.entered <;> rfl

theorem entered_cons (f : Frame) (fs : List Frame) :
    entered (f :: fs) = if f.entered then f :: entered fs else entered fs :=
  List.filter_cons

/-- The frames that have been put into the queue, as they were then: each has been entered since or
still waits. -/
def scheduled (met : List Frame) (t : Traversal) : List Frame := waiting met ++ waiting t.queue

section Scheduled

variable (ms : List Frame) {t : Traversal} {f : Frame} {rest : List Frame}
  (hq : t.queue = f :: rest)

theorem waiting_concat {ms : List Frame} (hf : f.entered = false) :
    waiting (ms ++ [f]) = waiting ms ++ [f] := by
  rw [waiting_append, waiting_cons, hf, if_neg Bool.false_ne_true]
  rfl

theorem waiting_concat_of_entered {ms : List Frame} (hf : f.entered = true) :
    waiting (ms ++ [f]) = waiting ms := by
  rw [waiting_append, waiting_cons, hf, if_pos rfl]
  exact List.append_nil _

include hq in
theorem mem_scheduled_of_waiting (hf : f.entered = false) : f ∈ scheduled ms t := by
  rw [scheduled, hq, waiting_cons, hf, if_neg Bool.false_ne_true]
  exact List.mem_append_right _ List.mem_cons_self

include hq in
/-- When a directory is entered, the frames of its subdirectories come in addition. -/
theorem scheduled_enter (hf : f.entered = false) {active : List Location} {frames : List Frame}
    (hready : ∀ g ∈ frames, Ready o d f active g) {u : Traversal}
    (hu : u.queue = frames ++ f.opened :: rest) :
    (scheduled (ms ++ [f]) u).Perm (scheduled ms t ++ frames) := by
  rw [scheduled, scheduled, waiting_concat hf, hu, hq, waiting_append, waiting_of_ready hready,
    waiting_cons, if_pos f.opened_entered, waiting_cons, hf, if_neg Bool.false_ne_true,
    List.append_assoc, List.append_assoc, List.singleton_append, List.cons_append]
  exact (List.perm_append_comm.cons f).append_left _

include hq in
theorem scheduled_leave (hf : f.entered = true) :
    scheduled (ms ++ [f]) (leave o t f rest) = scheduled ms t := by
  rw [scheduled, scheduled, waiting_concat_of_entered hf, hq, waiting_cons, hf, if_pos rfl]
  rfl

/-- What has been put into the queue stays among the scheduled frames. -/
theorem mem_scheduled_step (hd : d.WellFormed) {g : Frame} (hg : g ∈ scheduled ms t) :
    g ∈ scheduled (ms ++ t.queue.head?.toList) (t.step o d).2 := by
  cases hq : t.queue with
  | nil =>
    rw [step_of_nil hq]
    simpa using hg
  | cons f rest =>
    cases hf : f.entered with
    | false =>
      obtain ⟨frames, hready, -, hqueue, -⟩ := enter_snd (o := o) hd t f rest
      rw [step_of_waiting hq hf]
      exact (scheduled_enter ms hq hf hready hqueue).symm.subset (List.mem_append_left _ hg)
    | true =>
      rw [step_of_entered hq hf]
      exact (scheduled_leave (o := o) ms hq hf).symm ▸ hg

end Scheduled

/-- What the frames met so far and the queue have to do with each other. -/
structure History (o : Options) (d : Disk) (root : Text) (met : List Frame) (t : Traversal) :
    Prop where
  nodup : ((scheduled met t).map Frame.names).Nodup
  /-- A frame was put into the queue by the directory in which it lies. -/
  parent : ∀ g ∈ scheduled met t, g = rootFrame o d root ∨
    ∃ f ∈ waiting met, ∃ name, g.names = f.names ++ [name]
  /-- The root has the shortest path. -/
  deeper : ∀ g ∈ scheduled met t, (rootFrame o d root).names.length ≤ g.names.length
  /-- A directory that has been entered has been left or is still in the queue. -/
  left : (entered met ++ entered t.queue).Perm ((waiting met).map Frame.opened)

variable {root : Text} {ms : List Frame} {t : Traversal}

theorem History.start : History o d root [] (Traversal.start o d root) := by
  have hsched : scheduled [] (Traversal.start o d root) = [rootFrame o d root] := rfl
  refine ⟨?_, ?_, ?_, ?_⟩
  · rw [hsched]
    exact List.nodup_singleton _
  · rw [hsched]
    intro g hg
    exact Or.inl (List.mem_singleton.1 hg)
  · rw [hsched]
    intro g hg
    rw [List.mem_singleton.1 hg]
  · exact List.Perm.refl _

namespace History

variable (h : History o d root ms t)

include h in
/-- The directories in the queue are all different. -/
theorem nodup_names_queue : (t.queue.map Frame.names).Nodup := by
  have hperm : (entered t.queue ++ waiting t.queue).Perm t.queue :=
    List.filter_append_perm Frame.entered t.queue
  have hopened :
      ((waiting ms).map Frame.opened).map Frame.names = (waiting ms).map Frame.names := by
    rw [List.map_map]
    rfl
  have hleft := (h.left.map Frame.names).trans (.of_eq hopened)
  rw [List.map_append] at hleft
  have hall : (((entered ms).map Frame.names ++ (entered t.queue).map Frame.names) ++
      (waiting t.queue).map Frame.names).Nodup := by
    refine (hleft.append_right _).nodup_iff.2 ?_
    rw [← List.map_append]
    exact h.nodup
  rw [List.append_assoc] at hall
  have hqueue := (List.nodup_append.1 hall).2.1
  rw [← List.map_append] at hqueue
  exact (hperm.map _).nodup_iff.1 hqueue

variable {f : Frame} {rest : List Frame} (hq : t.queue = f :: rest)

include h hq in
/-- What waits at the front of the queue has not been entered before. -/
theorem names_ne_of_waiting (hf : f.entered = false) {g : Frame} (hg : g ∈ waiting ms) :
    g.names ≠ f.names := by
  have hnodup := h.nodup
  rw [scheduled, List.map_append, hq, waiting_cons, hf, if_neg Bool.false_ne_true,
    List.map_cons] at hnodup
  exact (List.nodup_append.1 hnodup).2.2 _ (List.mem_map_of_mem hg) _ List.mem_cons_self

include h hq in
/-- The frames of subdirectories have not been in the queue before. -/
theorem names_not_mem (hf : f.entered = false) {g : Frame} {name : Text}
    (hg : g.names = f.names ++ [name]) : g.names ∉ (scheduled ms t).map Frame.names := by
  have hmem : f ∈ scheduled ms t := mem_scheduled_of_waiting ms hq hf
  intro hold
  obtain ⟨g', hg', heq⟩ := List.mem_map.1 hold
  rcases h.parent g' hg' with rfl | ⟨p, hp, name', hname'⟩
  · have hlen := congrArg List.length (heq.trans hg)
    have hdeep := h.deeper f hmem
    rw [List.length_append, List.length_singleton] at hlen
    omega
  -- Its directory would have been entered before, but it is entered only now.
  · have hsame : p.names = f.names := by
      have := (hname'.symm.trans heq).trans hg
      exact List.append_inj_left' this rfl
    exact h.names_ne_of_waiting hq hf hp hsame

include h hq in
theorem enter (hd : d.WellFormed) (hf : f.entered = false) :
    History o d root (ms ++ [f]) (Traversal.enter o d t f rest).2 := by
  obtain ⟨frames, hready, hnodup, hqueue, -⟩ := enter_snd (o := o) hd t f rest
  have hsched := scheduled_enter ms hq hf hready hqueue
  have hmet : waiting (ms ++ [f]) = waiting ms ++ [f] := waiting_concat hf
  have hmem : f ∈ scheduled ms t := mem_scheduled_of_waiting ms hq hf
  refine ⟨?_, ?_, ?_, ?_⟩
  · refine (hsched.map _).nodup_iff.2 ?_
    rw [List.map_append]
    refine h.nodup.append hnodup (List.disjoint_right.2 ?_)
    intro x hx
    obtain ⟨g, hg, rfl⟩ := List.mem_map.1 hx
    obtain ⟨name, hname⟩ := (hready g hg).names
    exact h.names_not_mem hq hf hname
  · intro g hg
    rw [hmet]
    rcases List.mem_append.1 (hsched.subset hg) with hold | hnew
    · rcases h.parent g hold with hroot | ⟨p, hp, hname⟩
      · exact Or.inl hroot
      · exact Or.inr ⟨p, List.mem_append_left _ hp, hname⟩
    · exact Or.inr ⟨f, List.mem_append_right _ (List.mem_singleton_self f), (hready g hnew).names⟩
  · intro g hg
    rcases List.mem_append.1 (hsched.subset hg) with hold | hnew
    · exact h.deeper g hold
    · obtain ⟨name, hname⟩ := (hready g hnew).names
      have hdeep := h.deeper f hmem
      rw [hname, List.length_append]
      omega
  · have hleft := h.left
    rw [hq, entered_cons, hf, if_neg Bool.false_ne_true] at hleft
    have hnil : entered [f] = [] := by
      rw [entered_cons, hf, if_neg Bool.false_ne_true]
      rfl
    rw [hmet, hqueue, entered_append, entered_append, entered_of_ready hready, hnil,
      List.append_nil, List.nil_append, entered_cons, if_pos f.opened_entered, List.map_append]
    exact (List.perm_middle.trans (hleft.cons _)).trans (List.perm_append_singleton _ _).symm

include h hq in
theorem leave (hf : f.entered = true) :
    History o d root (ms ++ [f]) (Traversal.leave o t f rest) := by
  have hsched := scheduled_leave (o := o) ms hq hf
  have hmet : waiting (ms ++ [f]) = waiting ms := waiting_concat_of_entered hf
  refine ⟨?_, ?_, ?_, ?_⟩
  · rw [hsched]
    exact h.nodup
  · rw [hsched, hmet]
    exact h.parent
  · rw [hsched]
    exact h.deeper
  · have hleft := h.left
    rw [hq, entered_cons, hf, if_pos rfl] at hleft
    rw [hmet, entered_append, entered_cons, hf, if_pos rfl, List.append_assoc]
    exact hleft

include h in
/-- **A step keeps the history.** -/
theorem step (hd : d.WellFormed) :
    History o d root (ms ++ t.queue.head?.toList) (t.step o d).2 := by
  cases hq : t.queue with
  | nil =>
    rw [step_of_nil hq]
    simpa using h
  | cons f rest =>
    cases hf : f.entered with
    | false =>
      rw [step_of_waiting hq hf]
      exact h.enter hq hd hf
    | true =>
      rw [step_of_entered hq hf]
      exact h.leave hq hf

end History

theorem history (hd : d.WellFormed) (root : Text) (n : Nat) :
    History o d root (met o d root n) (loopHead o d root n) := by
  induction n with
  | zero => exact .start
  | succ n ih =>
    rw [met_succ, loopHead_succ]
    exact ih.step hd

/-! ## Once entered, once left -/

section Once

variable (o d root)

/-- The directories that a number of steps has entered: those that were met waiting. -/
def enteredBy (n : Nat) : List Frame := waiting (met o d root n)

/-- The directories that a number of steps has left: those that were met entered. -/
def leftBy (n : Nat) : List Frame := entered (met o d root n)

end Once

theorem loopHead_of_finished {N : Nat} (hN : (loopHead o d root N).queue = []) {n : Nat}
    (hn : N ≤ n) : loopHead o d root n = loopHead o d root N := by
  induction n, hn using Nat.le_induction with
  | base => rfl
  | succ n hn ih => rw [loopHead_succ, ih, step_of_nil hN]

theorem mem_scheduled_of_le (hd : d.WellFormed) {n N : Nat} (hn : n ≤ N) {g : Frame}
    (hg : g ∈ scheduled (met o d root n) (loopHead o d root n)) :
    g ∈ scheduled (met o d root N) (loopHead o d root N) := by
  induction N, hn using Nat.le_induction with
  | base => exact hg
  | succ N hn ih =>
    rw [met_succ, loopHead_succ]
    exact mem_scheduled_step _ hd ih

/-- A frame in the queue is scheduled, or was so before it was entered. -/
theorem exists_scheduled_of_mem_queue (hd : d.WellFormed) {n : Nat} {g : Frame}
    (hg : g ∈ (loopHead o d root n).queue) :
    ∃ f ∈ scheduled (met o d root n) (loopHead o d root n), f.key = g.key := by
  cases hent : g.entered with
  | false =>
    have hwait : g ∈ waiting (loopHead o d root n).queue := List.mem_filter.2 ⟨hg, by simp [hent]⟩
    exact ⟨g, List.mem_append_right _ hwait, rfl⟩
  | true =>
    have hopen : g ∈ entered (loopHead o d root n).queue := List.mem_filter.2 ⟨hg, hent⟩
    obtain ⟨f, hf, rfl⟩ :=
      List.mem_map.1 ((history hd root n).left.subset (List.mem_append_right _ hopen))
    exact ⟨f, List.mem_append_left _ hf, rfl⟩

/-- **Everything in the queue is entered once and left once** until the queue is empty. -/
theorem count_met (hd : d.WellFormed) {N : Nat} (hN : (loopHead o d root N).queue = []) {n : Nat}
    {g : Frame} (hg : g ∈ (loopHead o d root n).queue) :
    ((enteredBy o d root N).map Frame.key).count g.key = 1 ∧
      ((leftBy o d root N).map Frame.key).count g.key = 1 := by
  have hn : n ≤ N := by
    by_contra hlt
    rw [loopHead_of_finished hN (by omega), hN] at hg
    cases hg
  have hh := history hd (o := o) root N
  have hsched : scheduled (met o d root N) (loopHead o d root N) = enteredBy o d root N := by
    rw [scheduled, hN]
    exact List.append_nil _
  obtain ⟨f, hf, hkey⟩ := exists_scheduled_of_mem_queue hd hg
  have hmem := mem_scheduled_of_le hd hn hf
  have hnodup := hh.nodup
  rw [hsched] at hmem hnodup
  have hcount : ((enteredBy o d root N).map Frame.key).count g.key = 1 :=
    List.count_eq_one_of_mem (Frame.nodup_keys hnodup) (hkey ▸ List.mem_map_of_mem hmem)
  have hleft := hh.left.map Frame.key
  rw [hN, List.map_map] at hleft
  have hnil : entered ([] : List Frame) = [] := rfl
  rw [hnil, List.append_nil] at hleft
  exact ⟨hcount, (hleft.count_eq g.key).trans hcount⟩

end Traversal

end TreeSieve
