import TreeSieve.Proofs.Anchoring

/-!
# One name for each place

The path of a directory is written at three places: in the anchor of its rules, in the candidates
under which its entries are judged, and in its own candidate in the directory above. The first two
are made of its key. So they agree with the third one if the key of a subdirectory is the candidate
of the subdirectory, up to the slash at the end (`Traversal.one_name`).

A key has no slashes at its end, and an absolute form has none either unless it has nothing else
(`Path.IsForm`). The one directory whose subdirectories have two names is `//`. Its key is empty, so
a subdirectory is judged as `/a` there, but it has the key `//a`, which goes on to all that lies
below.
-/

namespace TreeSieve

open TreeSieve.Sym

namespace Path

theorem IsInside.isPrefix {p q : Text} (h : IsInside p q) : p ++ [slash] <+: q ++ [slash] := by
  obtain ⟨t, rfl, ht⟩ := h
  rcases ht with rfl | ht
  · rw [List.append_nil]
  · obtain ⟨t, rfl⟩ := List.head?_eq_some_iff.1 ht
    exact ⟨t ++ [slash], by simp⟩

/-- Behind a key, a name has one slash in front, and behind that of `//` it has two. -/
theorem IsForm.trimmed_join {p name : Text} (h : IsForm p) (hname : IsName name) :
    trimmed (Path.join p name) =
      if p = [slash, slash] then slash :: (trimmed p ++ slash :: name)
      else trimmed p ++ slash :: name := by
  rw [Path.trimmed_join hname]
  split
  · next hp =>
    rw [hp, join_isName hname]
    rfl
  · next hp => exact h.join_eq hname hp

end Path

/-! ## Candidates -/

/-- The path under which an entry of a directory is judged. -/
def Frame.candidate (f : Frame) (e : Entry) : Text :=
  if e.isDirectory then f.key ++ slash :: e.name ++ [slash] else f.key ++ slash :: e.name

theorem Frame.isPrefix_candidate (f : Frame) (e : Entry) : f.key ++ [slash] <+: f.candidate e := by
  rw [Frame.candidate]
  split
  · exact ⟨e.name ++ [slash], by simp⟩
  · exact ⟨e.name, by simp⟩

namespace Traversal

variable {o : Options} {d : Disk}

theorem exclusion_eq (t : Traversal) (f : Frame) (e : Entry) : exclusion t f e =
    if f.excludedBy = 0 ∨ hasNegatedAbove t.rules.rules f.excludedBy then
      judge t.rules.rules (f.candidate e) e.isDirectory f.excludedBy
    else f.excludedBy := rfl

theorem exclusion_congr {t t' : Traversal} (h : t.rules = t'.rules) (f : Frame) (e : Entry) :
    exclusion t f e = exclusion t' f e := by
  rw [exclusion_eq, exclusion_eq, h]

variable (o d) in
/-- A frame that an entry of a directory has put into the queue, with the exclusion that the entry
was judged to have. -/
structure Queued (t : Traversal) (f : Frame) (e : Entry) (g : Frame) : Prop where
  listed : ∃ children, d.scan f.absolute f.path o.followLinks = .ok children ∧ e ∈ children
  isDirectory : e.isDirectory = true
  absolute : g.absolute = Path.join f.absolute e.name
  excludedBy : g.excludedBy = exclusion t f e

theorem of_subframe? {t : Traversal} {f g : Frame} {e : Entry}
    (h : subframe? o d t f e = some g) : e.isDirectory = true ∧
      g.absolute = Path.join f.absolute e.name ∧ g.excludedBy = exclusion t f e := by
  unfold subframe? at h
  split at h
  · next hdir =>
    rw [schedule_fst o d t f (q := ⟨f.path, f.absolute, t.active, t.depth⟩) rfl rfl rfl] at h
    split at h
    · obtain ⟨q, hq, rfl⟩ := Option.map_eq_some_iff.1 h
      obtain ⟨-, habs, -⟩ := Place.below?_eq_some hq
      exact ⟨(Bool.and_eq_true_iff.1 hdir).1, habs, rfl⟩
    · cases h
  · cases h

/-- What entering a directory puts into the queue. -/
theorem exists_queued_of_enter (t : Traversal) (f : Frame) (rest : List Frame) :
    ∃ frames, (enter o d t f rest).2.queue = frames ++ f.opened :: rest ∧
      ∀ g ∈ frames, ∃ e, Queued o d (enter o d t f rest).2 f e g := by
  unfold enter
  cases hscope : (openScope o d t.rules f).children with
  | error e => exact ⟨[], by simp [hscope, Frame.opened], by simp⟩
  | ok children =>
    simp only [hscope, frames_foldl_visit, List.nil_append]
    refine ⟨_, rfl, fun g hg => ?_⟩
    obtain ⟨e, he, hsub⟩ := List.mem_filterMap.1 hg
    obtain ⟨hdir, habs, hexcluded⟩ := of_subframe? hsub
    exact ⟨e, ⟨children, scan_of_openScope hscope, he⟩, hdir, habs,
      hexcluded.trans (exclusion_congr rfl f e)⟩

/-- The key of a subdirectory is its candidate. -/
theorem Queued.key_eq (hd : d.WellFormed) {t : Traversal} {f g : Frame} {e : Entry}
    (h : Queued o d t f e g) (hf : Path.IsForm f.absolute) : g.key ++ [slash] =
      if f.absolute = [slash, slash] then slash :: f.candidate e else f.candidate e := by
  obtain ⟨children, hscan, he⟩ := h.listed
  rw [Frame.key, h.absolute, hf.trimmed_join (Disk.isName_of_mem_scan hd hscan he),
    Frame.candidate, if_pos h.isDirectory, Frame.key]
  split <;> simp

/-! ## Every directory of a traversal -/

theorem Nested.isForm {root : Text} {ls : List Level} (h : Nested o d root ls) :
    ∀ l ∈ ls, Path.IsForm l.frame.absolute := by
  induction h with
  | nil => simp
  | root => exact List.forall_mem_singleton.2 (d.isForm_absolute root)
  | @inner above _ f _ _ hf _ ih =>
    refine List.forall_mem_cons.2 ⟨?_, ih⟩
    obtain ⟨name, hname, hjoin⟩ := hf.absolute
    have hform : Path.IsForm f.absolute := by
      rw [hjoin]
      exact (ih above List.mem_cons_self).join hname
    exact hform

/-- An entered directory lies around the deepest one. -/
theorem Stacked.isInside_of_mem_queue {root : Text} {t : Traversal} {l : Level} {ls : List Level}
    (h : Stacked o d t (l :: ls)) (hn : Nested o d root (l :: ls)) {m : Frame} (hm : m ∈ t.queue)
    (hentered : m.entered = true) : Path.IsInside m.key l.frame.key := by
  rw [h.queue] at hm
  obtain ⟨k, hk, hmem⟩ := List.mem_flatMap.1 hm
  rcases List.mem_append.1 hmem with hwaiting | hframe
  · rw [(hn.waiting k hk m hwaiting).1] at hentered
    cases hentered
  · rw [List.mem_singleton.1 hframe]
    exact hn.isInside.2 k hk

/-- **One name for each place.** A directory that is entered has its rules anchored to its key, and
its entries are judged under its key with their names behind it. Each subdirectory that it puts into
the queue has as its key the candidate that it was judged by, up to the slash at the end, or in `//`
the same with one more slash in front. So what lies below a directory has candidates that begin with
the directory's own. -/
theorem one_name (hd : d.WellFormed) (root : Text) {n : Nat} {f : Frame} {rest : List Frame}
    (hq : (loopHead o d root n).queue = f :: rest) (hf : f.entered = false) :
    let t := loopHead o d root (n + 1)
    (∀ r ∈ declaredIn o d f,
      r.regex = f.key.regex ++ r.glob.regex ++ Text.ofChars ['\\', 'Z']) ∧
    (∀ e, exclusion t f e =
      if f.excludedBy = 0 ∨ hasNegatedAbove t.rules.rules f.excludedBy then
        judge t.rules.rules (f.candidate e) e.isDirectory f.excludedBy
      else f.excludedBy) ∧
    (∃ frames, t.queue = frames ++ f.opened :: rest ∧ ∀ g ∈ frames, ∃ e, Queued o d t f e g ∧
      g.key ++ [slash] =
        if f.absolute = [slash, slash] then slash :: f.candidate e else f.candidate e) ∧
    ∀ m ∈ t.queue, m.entered = true → ∀ e, m.key ++ [slash] <+: f.candidate e := by
  intro t
  obtain ⟨waiting, ls, hnested, hstacked⟩ := exists_levels_enter hd root hq hf
  have hform : Path.IsForm f.absolute := hnested.isForm _ List.mem_cons_self
  obtain ⟨frames, hqueue, hqueued⟩ :=
    exists_queued_of_enter (o := o) (d := d) (loopHead o d root n) f rest
  rw [← step_of_waiting hq hf, ← loopHead_succ] at hqueue hqueued
  refine ⟨?_, exclusion_eq t f, ⟨frames, hqueue, fun g hg => ?_⟩, fun m hm hentered e => ?_⟩
  · intro r hr
    rw [Rule.regex, anchor_of_mem_declaredIn hr]
  · obtain ⟨e, he⟩ := hqueued g hg
    exact ⟨e, he, he.key_eq hd hform⟩
  · have hinside := hstacked.isInside_of_mem_queue hnested hm hentered
    exact hinside.isPrefix.trans (f.isPrefix_candidate e)

/-- The rules of `/` and `/a` are anchored to the keys of these directories, and `/a` has the key
that it is judged by. -/
theorem one_name_slash :
    let o : Options := { patterns := ["/a/b"] }
    let d : Disk := ⟨.directory [("a", .directory [("b", .file [])])], [], []⟩
    let f := rootFrame o d "/"
    (∀ r ∈ declaredIn o d f,
      r.regex = f.key.regex ++ r.glob.regex ++ Text.ofChars ['\\', 'Z']) ∧
    (∃ frames, (loopHead o d "/" 1).queue = frames ++ [f.opened] ∧ ∀ g ∈ frames, ∃ e,
      Queued o d (loopHead o d "/" 1) f e g ∧ g.key ++ [slash] = f.candidate e) ∧
    (loopHead o d "/" 1).queue.map Frame.key = ["/a", ""] := by
  intro o d f
  obtain ⟨hregex, -, ⟨frames, hqueue, hframes⟩, -⟩ :=
    one_name (o := o) (d := d) (by decide) "/" (n := 0) (queue_start o d "/") rfl
  refine ⟨hregex, ⟨frames, hqueue, fun g hg => ?_⟩, by cbv⟩
  obtain ⟨e, he, hkey⟩ := hframes g hg
  exact ⟨e, he, hkey.trans (if_neg (by decide))⟩

/-- **A directory with two names**: in `//`, the subdirectory `a` is judged as `/a/`, and it waits
with the key `//a`. So a pattern does not reach `b` there that reaches it from `/`. -/
theorem two_names :
    let o : Options := { patterns := ["/a/b"] }
    let d : Disk := ⟨.directory [("a", .directory [("b", .file [])])], [], []⟩
    let f := rootFrame o d "//"
    let a : Entry := { name := "a", path := "//a", isDirectory := true, isHidden := false }
    d.scan f.absolute f.path o.followLinks = .ok [a] ∧ f.candidate a = "/a/" ∧
      (loopHead o d "//" 1).queue.map Frame.key = ["//a", ""] ∧
      Walker.results { options := o } d "//" = [⟨"//a/b", false⟩] ∧
      Walker.results { options := o } d "/" = [] := by
  intro o d f a
  exact ⟨by cbv, by cbv, by cbv, by cbv, by cbv⟩

end Traversal

end TreeSieve
