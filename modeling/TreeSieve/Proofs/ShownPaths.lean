import TreeSieve.Proofs.LoopHead
import TreeSieve.Proofs.ByteTrees

/-!
# Under which paths results are shown

A traversal of a root shows its results under paths on which names lead on from the root, and the
names are those of entries of the tree (`Traversal.ShowsBelow.step`). This needs nothing but the
names of the tree, so it holds also where the content of files changes from one step to the next.
-/

namespace TreeSieve

open TreeSieve.Sym

/-- Names out of a list lead on from one path to another. -/
def Path.IsBelow (ns : List Text) (root path : Text) : Prop :=
  ∃ way : List Text, (∀ name ∈ way, name ∈ ns) ∧ path = below root way

theorem Path.IsBelow.refl (ns : List Text) (root : Text) : IsBelow ns root root :=
  ⟨[], by simp, rfl⟩

theorem Path.IsBelow.join {ns : List Text} {root path name : Text} (h : IsBelow ns root path)
    (hname : name ∈ ns) : IsBelow ns root (Path.join path name) := by
  obtain ⟨way, hway, rfl⟩ := h
  exact ⟨way ++ [name], List.forall_mem_append.2 ⟨hway, List.forall_mem_singleton.2 hname⟩,
    (below_concat root way name).symm⟩

theorem result_mem_shown {events : List Event} {r : Result} :
    .result r ∈ shown events ↔ .result r ∈ events := by
  rw [shown, List.mem_filter]
  exact and_iff_left rfl

/-- Leaving a directory puts no other path aside. -/
theorem Ancestors.mem_pending_leave {a : Ancestors} {key path p : Text} {above : Option Text}
    (h : p ∈ (a.leave key path above).pending) : p = path ∨ p ∈ a.pending := by
  unfold leave at h
  split at h
  · cases above <;> exact List.mem_cons.1 h
  · exact Or.inr h

/-- The result of an event has the printed form of a path below the root. -/
def Event.ShowsBelow (ns : List Text) (root : Text) (e : Event) : Prop :=
  ∀ r, e = .result r → ∃ path, Path.IsBelow ns root path ∧ r.path = Path.plain path

namespace Traversal

variable {o : Options} {d : Disk} {ns : List Text} {root : Text} {t : Traversal}

/-- The paths of a traversal lie below the root: those of the directories in its queue and those put
aside for output. -/
structure ShowsBelow (ns : List Text) (root : Text) (t : Traversal) : Prop where
  queue : ∀ f ∈ t.queue, Path.IsBelow ns root f.path
  pending : ∀ path ∈ t.ancestors.pending, Path.IsBelow ns root path

theorem showsBelow_start (o : Options) (d : Disk) (ns : List Text) (root : Text) :
    ShowsBelow ns root (start o d root) :=
  ⟨List.forall_mem_singleton.2 (.refl ns root), by simp [start]⟩

/-- The frame of a subdirectory has the path of its entry. -/
theorem path_of_subframe? {f g : Frame} {e : Entry} (h : subframe? o d t f e = some g) :
    g.path = e.path := by
  unfold subframe? at h
  split at h
  · rw [schedule_fst o d t f (q := ⟨f.path, f.absolute, t.active, t.depth⟩) rfl rfl rfl] at h
    split at h
    · obtain ⟨q, hq, rfl⟩ := Option.map_eq_some_iff.1 h
      exact (Place.below?_eq_some hq).1
    · cases h
  · cases h

theorem shown_notes_openScope (o : Options) (d : Disk) (rules : RuleStack) (f : Frame) :
    shown (openScope o d rules f).notes = [] := by
  unfold openScope
  cases ruleFile o d f with
  | error e => rfl
  | ok found => cases found <;> rfl

variable (hd : d.root.names ⊆ ns)

include hd

/-- Listed entries are shown below the root. -/
theorem isBelow_of_mem_scan {directory path : Text} {follow : Bool} {children : List Entry}
    (hpath : Path.IsBelow ns root path) (h : d.scan directory path follow = .ok children) :
    ∀ e ∈ children, Path.IsBelow ns root e.path := by
  intro e he
  obtain ⟨l, entries, node, -, hentries, hmem, hjoin, -⟩ := Disk.mem_scan h he
  rw [hjoin]
  exact hpath.join (hd (Node.mem_names_of_mem_entries hentries hmem))

theorem ShowsBelow.enter {f : Frame} {rest : List Frame} (h : ShowsBelow ns root t)
    (hq : t.queue = f :: rest) :
    (∀ e ∈ (enter o d t f rest).1, e.ShowsBelow ns root) ∧
      ShowsBelow ns root (enter o d t f rest).2 := by
  obtain ⟨hf, hrest⟩ := List.forall_mem_cons.1 (hq ▸ h.queue)
  have hnotes := shown_notes_openScope o d t.rules f
  have hopened : ∀ g ∈ { f with entered := true } :: rest, Path.IsBelow ns root g.path :=
    List.forall_mem_cons.2 ⟨hf, hrest⟩
  unfold Traversal.enter
  cases hscope : (openScope o d t.rules f).children with
  | error e =>
    simp only [hscope]
    refine ⟨fun event hevent r hr => ?_, hopened, h.pending⟩
    rw [hr, ← result_mem_shown, shown_append, hnotes, shown_onFailure] at hevent
    obtain hfailure := List.mem_singleton.1 hevent
    unfold Options.failure at hfailure
    split at hfailure <;> cases hfailure
  | ok children =>
    have hchildren := isBelow_of_mem_scan hd hf (scan_of_openScope hscope)
    simp only [hscope]
    refine ⟨fun event hevent r hr => ?_, fun g hg => ?_, fun path hpath => ?_⟩
    · rw [hr, ← result_mem_shown, shown_append, hnotes, shown_foldl_visit] at hevent
      cases hout : o.output with
      | files =>
        simp only [hout] at hevent
        obtain ⟨e, he, hresult⟩ := List.mem_map.1 hevent
        obtain rfl := Event.result.inj hresult
        exact ⟨e.path, hchildren e (List.mem_of_mem_filter he), rfl⟩
      | directories =>
        rw [hout] at hevent
        cases hevent
    · rw [frames_foldl_visit] at hg
      rcases List.mem_append.1 hg with hnew | hold
      · obtain ⟨e, he, hsub⟩ := List.mem_filterMap.1 hnew
        exact path_of_subframe? hsub ▸ hchildren e he
      · exact hopened g hold
    · refine h.pending path ?_
      rw [ancestors_foldl_visit] at hpath
      cases hout : o.output with
      | files =>
        rw [hout] at hpath
        exact hpath
      | directories =>
        simp only [hout] at hpath
        split at hpath <;> exact hpath

omit hd in
theorem ShowsBelow.leave {f : Frame} {rest : List Frame} (h : ShowsBelow ns root t)
    (hq : t.queue = f :: rest) : ShowsBelow ns root (leave o t f rest) := by
  obtain ⟨hf, hrest⟩ := List.forall_mem_cons.1 (hq ▸ h.queue)
  refine ⟨hrest, fun path hpath => ?_⟩
  unfold Traversal.leave at hpath
  cases hout : o.output with
  | files =>
    simp only [hout] at hpath
    exact h.pending path hpath
  | directories =>
    simp only [hout] at hpath
    rcases Ancestors.mem_pending_leave hpath with rfl | hold
    · exact hf
    · exact h.pending path hold

/-- **One step** shows results below the root and goes on below the root. -/
theorem ShowsBelow.step (h : ShowsBelow ns root t) :
    (∀ e ∈ (step o d t).1, e.ShowsBelow ns root) ∧ ShowsBelow ns root (step o d t).2 := by
  unfold Traversal.step
  split
  · exact ⟨by simp, h⟩
  · next f rest hq =>
    split
    · exact ⟨by simp, h.leave hq⟩
    · exact h.enter hd hq

omit hd in
theorem ShowsBelow.finish (h : ShowsBelow ns root t) :
    ∀ e ∈ t.finish, e.ShowsBelow ns root := by
  intro e he r hr
  obtain ⟨path, hpath, rfl⟩ := List.mem_map.1 he
  obtain rfl := Event.result.inj hr
  exact ⟨path, h.pending path hpath, rfl⟩

end Traversal

end TreeSieve
