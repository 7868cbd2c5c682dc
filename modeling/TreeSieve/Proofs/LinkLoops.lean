import TreeSieve.Proofs.Finding
import TreeSieve.Proofs.LoopInvariant
import TreeSieve.Proofs.Route

/-!
# Walks that follow links

A walk that follows links goes to one directory on many paths, and may go there again after it has
left it. Only a directory that it is in is not entered once more. The directories that it is in are
those on the path from the root to the deepest one, so the path never has more directories than the
file system, and every walk ends.

A link is looked at when the directory is listed that holds it, which is before any of the
directory's other subdirectories is entered. What is decided then still holds when the turn of the
link comes, because all that was entered in between has been left (`Traversal.exists_levels`). So
besides loops only the links are left out for which there are more links on the path than the system
follows (`Traversal.links_followed_up_to_limit`). Such a link is taken for a file
(`Traversal.links_drop_more_than_loops`).
-/

namespace TreeSieve

open TreeSieve.Sym

/-! ## Where the names in a directory lead -/

namespace Disk

/-- A name leads from a place to a directory: it is that of a subdirectory there, or of a link that
leads to one, however many links are on the way. -/
def LeadsToDirectory (d : Disk) (l : Location) (name : Text) (m : Location) : Prop :=
  (∃ links, d.follow .target links l [name] = .ok m) ∧
    (d.root.get? m).any Node.isDirectory = true

namespace LeadsToDirectory

variable {d : Disk} {l m : Location} {name p : Text} (h : d.LeadsToDirectory l name m)
  (hl : d.locate p = .ok l)

include h hl

/-- Behind a path the name leads to the same place, unless there are more links on the way than the
system follows. -/
theorem locate_join (hname : Path.IsName name) : d.locate (Path.join p name) = .ok m ∨
    d.locate (Path.join p name) = .error .tooManyLinks := by
  obtain ⟨⟨links, hfollow⟩, -⟩ := h
  obtain ⟨left, hfind⟩ := exists_find_below .target hl
  have hjoin : d.locate (Path.join p name) = d.follow .target left l [name] :=
    hfind [name] (by simpa using hname) (by simp)
  rw [hjoin]
  exact follow_of_follow hfollow left

/-- **A listing that follows links** takes the name for that of a directory, unless it is a link and
there are too many links on the path to it. -/
theorem listed (hd : d.WellFormed) {entries : List (Text × Node)}
    (hget : d.root.get? l = some (.directory entries)) {node : Node}
    (hmem : (name, node) ∈ entries) :
    (d.entryIsDirectory p true (name, node) = true ∧ d.locate (Path.join p name) = .ok m) ∨
      (d.entryIsDirectory p true (name, node) = false ∧ node.isLink = true ∧
        d.locate (Path.join p name) = .error .tooManyLinks) := by
  obtain ⟨hnodup, hnames⟩ := hd.entries hget
  have hname := hnames _ hmem
  have hown : node.isLink = false → d.locate (Path.join p name) = .ok (l ++ [name]) :=
    Disk.locate_join hname hl hget (Node.lookup_of_mem hnodup hmem)
  have hplace := Node.get?_of_mem hget hnodup hmem
  rcases h.locate_join hl hname with hok | hmany
  · refine Or.inl ⟨?_, hok⟩
    cases node with
    | directory _ => rfl
    | link _ => simp [entryIsDirectory, isDirectory, node?, hok, h.2]
    | file _ | device _ =>
      have hkind := h.2
      rw [Except.ok.inj (hok.symm.trans (hown rfl)), hplace] at hkind
      cases hkind
  · cases node with
    | link _ => exact Or.inr ⟨by simp [entryIsDirectory, isDirectory, node?, hmany], rfl, hmany⟩
    | directory _ | file _ | device _ =>
      rw [hown rfl] at hmany
      cases hmany

end LeadsToDirectory

end Disk

namespace Traversal

variable {o : Options} {d : Disk}

/-! ## What entering a directory puts into the queue -/

/-- Whether the filters let a walk go on from a directory that it has entered to a subdirectory of
the given name: the rules, by which it is judged as a directory, the hidden names and the limit on
the depth. What the listing makes of the name is no part of this. -/
def admits (o : Options) (t : Traversal) (f : Frame) (name : Text) : Bool :=
  let e : Entry :=
    { name, path := Path.join f.path name, isDirectory := true
      isHidden := Path.isHiddenName name }
  o.entersDirectory e.isHidden && !o.depth.any (· < t.depth) &&
    (exclusion t f e == 0 || o.ignored || hasNegatedAbove t.rules.rules (exclusion t f e))

/-- Only the rules, the active places and the depth matter for whether a child is entered. -/
theorem subframe?_congr {t u : Traversal} (hrules : t.rules = u.rules)
    (hactive : t.active = u.active) (hdepth : t.depth = u.depth) (f : Frame) (e : Entry) :
    subframe? o d t f e = subframe? o d u f e := by
  unfold subframe? schedule exclusion
  rw [hrules, hactive, hdepth]

/-- Entering a directory that can be read puts the frames of its children in front of its own. -/
theorem queue_enter {t : Traversal} {f : Frame} {children : List Entry}
    (hchildren : (openScope o d t.rules f).children = .ok children) (rest : List Frame) :
    (enter o d t f rest).2.queue =
      children.filterMap (subframe? o d (enter o d t f rest).2 f) ++ f.opened :: rest := by
  have hrules : (enter o d t f rest).2.rules = (openScope o d t.rules f).rules := by
    rw [enter, hchildren]
  have hactive : (enter o d t f rest).2.active = f.identity.toList ++ t.active := by
    rw [enter, hchildren]
  have hdepth : (enter o d t f rest).2.depth = t.depth + 1 := by
    rw [enter, hchildren]
  have hsub : subframe? o d (enter o d t f rest).2 f = subframe? o d
      { queue := f.opened :: rest
        rules := (openScope o d t.rules f).rules
        ancestors := t.ancestors
        active := f.identity.toList ++ t.active
        depth := t.depth + 1 } f :=
    funext fun e => subframe?_congr hrules hactive hdepth f e
  rw [hsub, enter]
  simp only [hchildren, frames_foldl_visit, List.nil_append]
  rfl

theorem subframe?_eq_some {t : Traversal} {f g : Frame} {e : Entry}
    (h : subframe? o d t f e = some g) :
    e.isDirectory = true ∧ g.absolute = Path.join f.absolute e.name := by
  unfold subframe? at h
  split at h
  · next hdir =>
    rw [schedule_fst o d t f (q := ⟨f.path, f.absolute, t.active, t.depth⟩) rfl rfl rfl] at h
    split at h
    · obtain ⟨q, hq, rfl⟩ := Option.map_eq_some_iff.1 h
      rw [Bool.and_eq_true] at hdir
      exact ⟨hdir.1, (Place.below?_eq_some hq).2.1⟩
    · cases h
  · cases h

/-- A listed directory that is admitted is entered unless the walk is where it leads. -/
theorem subframe?_of_admits {t : Traversal} {f : Frame} {e : Entry} (hdir : e.isDirectory = true)
    (hhidden : e.isHidden = Path.isHiddenName e.name) (h : admits o t f e.name = true)
    (hloop : ∀ l, Place.identity? o d (Path.join f.absolute e.name) = some l → l ∉ t.active) :
    ∃ g, subframe? o d t f e = some g ∧ g.absolute = Path.join f.absolute e.name := by
  have hjudged : exclusion t f ⟨e.name, Path.join f.path e.name, true, e.isHidden⟩ =
      exclusion t f e := by
    simp only [exclusion, hdir]
  simp only [admits, ← hhidden, hjudged, Bool.and_eq_true, Bool.not_eq_true'] at h
  obtain ⟨⟨henters, hdepth⟩, hrules⟩ := h
  have hnoloop :
      (Place.identity? o d (Path.join f.absolute e.name)).any t.active.contains = false := by
    cases hid : Place.identity? o d (Path.join f.absolute e.name) with
    | none => rfl
    | some l => simpa using hloop l hid
  rw [subframe?, hdir, henters, Bool.and_self, if_pos rfl,
    schedule_fst o d t f (q := ⟨f.path, f.absolute, t.active, t.depth⟩) rfl rfl rfl, if_pos hrules,
    Place.below?, hdepth, if_neg Bool.false_ne_true]
  simp only [hnoloop]
  exact ⟨_, rfl, rfl⟩

/-! ## Where the directories of the queue lead -/

/-- Every directory in the queue but the root leads to a place of the file system. -/
theorem exists_locate_of_mem_queue (hd : d.WellFormed) (root : Text) (n : Nat) :
    ∀ g ∈ (loopHead o d root n).queue, g.above = none ∨ ∃ l, d.locate g.absolute = .ok l := by
  induction n with
  | zero =>
    intro g hg
    obtain rfl : g = rootFrame o d root := List.mem_singleton.1 hg
    exact Or.inl rfl
  | succ n ih =>
    rw [loopHead_succ]
    cases hq : (loopHead o d root n).queue with
    | nil =>
      rw [step_of_nil hq, hq]
      simp
    | cons f rest =>
      rw [hq] at ih
      obtain ⟨hf, hrest⟩ := List.forall_mem_cons.1 ih
      cases hent : f.entered with
      | true =>
        rw [step_of_entered hq hent]
        exact hrest
      | false =>
        rw [step_of_waiting hq hent]
        cases hscope : (openScope o d (loopHead o d root n).rules f).children with
        | error e =>
          rw [enter, hscope]
          exact List.forall_mem_cons.2 ⟨hf, hrest⟩
        | ok children =>
          intro g hg
          rw [queue_enter hscope] at hg
          rcases List.mem_append.1 hg with hnew | hold
          · obtain ⟨e, he, hsub⟩ := List.mem_filterMap.1 hnew
            have hscan := scan_of_openScope hscope
            obtain ⟨hdir, habs⟩ := subframe?_eq_some hsub
            obtain ⟨l, m, entries, -, hm, -⟩ := Disk.locate_subdirectory hd hscan he hdir
            exact Or.inr ⟨m, habs ▸ hm⟩
          · rcases List.mem_cons.1 hold with rfl | hold
            · exact hf
            · exact hrest g hold

/-! ## The directories that the walk is in -/

namespace Nested

variable {root : Text} {ls : List Level}

/-- The entered directories of the queue are those of its levels. -/
theorem entered_frames (h : Nested o d root ls) :
    Traversal.entered (ls.flatMap Level.frames) = ls.map Level.frame := by
  have hlevel : ∀ l ∈ ls, Traversal.entered l.frames = [l.frame] := by
    intro l hl
    have hwaiting : Traversal.entered l.waiting = [] :=
      List.filter_eq_nil_iff.2 fun g hg => by simp [(h.waiting l hl g hg).1]
    rw [Level.frames, entered_append, hwaiting, entered_cons, if_pos (h.entered l hl)]
    rfl
  rw [Traversal.entered, List.filter_flatMap, List.map_eq_flatMap]
  exact List.flatMap_congr hlevel

/-- Where the walk is, if links are followed. -/
theorem mem_places_iff (h : Nested o d root ls) (hlinks : o.followLinks = true) {l : Location} :
    l ∈ places ls ↔ some l ∈ ls.map fun m => d.identity? m.frame.absolute := by
  rw [places, List.mem_flatMap, List.mem_map]
  refine exists_congr fun m => and_congr_right fun hm => ?_
  rw [h.identity m hm, Place.identity?, if_pos hlinks, Option.mem_toList]

/-- The directories that the walk is in are different directories, even if the root leads
nowhere. -/
theorem nodup_identities (h : Nested o d root ls) (hlinks : o.followLinks = true)
    (hlead : ∀ l ∈ ls, l.frame.above = none ∨ ∃ m, d.locate l.frame.absolute = .ok m) :
    (ls.map fun l => d.identity? l.frame.absolute).Nodup := by
  induction h with
  | nil => exact List.nodup_nil
  | root => exact List.nodup_singleton _
  | @inner l ls f frames hn hf hw ih =>
    obtain ⟨hfirst, hrest⟩ := List.forall_mem_cons.1 hlead
    refine List.nodup_cons.2 ⟨?_, ih hrest⟩
    obtain hnone | ⟨m, hm⟩ := hfirst
    · rw [Frame.opened, hf.above] at hnone
      cases hnone
    · have hid : d.identity? f.absolute = some m := by
        rw [Disk.identity?]
        exact congrArg Except.toOption hm
      have hnot : some m ∉ (l :: ls).map fun l => d.identity? l.frame.absolute := by
        rw [← hn.mem_places_iff hlinks]
        exact hf.fresh m (by rw [hf.identity, Place.identity?, if_pos hlinks, hid])
      rw [← hid] at hnot
      exact hnot

end Nested

/-- **The path that a walk is on.** The directories that it has entered and not left lie one in the
other, from the deepest one to the root. If links are followed they are all different. -/
theorem entered_queue (hd : d.WellFormed) (hlinks : o.followLinks = true) (root : Text) (n : Nat) :
    ((entered (loopHead o d root n).queue).IsChain fun f g => f.above = some g.key) ∧
      (∀ f ∈ (entered (loopHead o d root n).queue).getLast?, f = (rootFrame o d root).opened) ∧
      ((entered (loopHead o d root n).queue).map fun f => d.identity? f.absolute).Nodup := by
  cases n with
  | zero => exact ⟨.nil, by simp [loopHead, queue_start, entered, rootFrame], List.nodup_nil⟩
  | succ n =>
    obtain ⟨ls, hn, hs⟩ := exists_levels (o := o) hd root n
    have hlead := exists_locate_of_mem_queue (o := o) hd root (n + 1)
    rw [hs.queue] at hlead ⊢
    rw [hn.entered_frames]
    refine ⟨(List.isChain_map _).2 hn.chain, ?_, ?_⟩
    · intro f hf
      rw [List.getLast?_map] at hf
      obtain ⟨l, hl, rfl⟩ := Option.map_eq_some_iff.1 hf
      exact hn.last l hl
    · rw [List.map_map]
      refine hn.nodup_identities hlinks fun l hl => hlead _ ?_
      exact List.mem_flatMap.2 ⟨l, hl, by simp [Level.frames]⟩

/-! ## What is entered -/

theorem lt_of_finished {root : Text} {n N : Nat} {f : Frame} {rest : List Frame}
    (hq : (loopHead o d root n).queue = f :: rest) (hN : (loopHead o d root N).queue = []) :
    n < N := by
  by_contra hle
  rw [loopHead_of_finished hN (by omega), hN] at hq
  cases hq

section Entered

variable (hd : d.WellFormed) {root : Text} {n : Nat} {f : Frame} {rest : List Frame}
  (hq : (loopHead o d root n).queue = f :: rest) (hf : f.entered = false)

include hd hq hf

/-- The subdirectories of a directory come into the queue when it is entered, and never later. -/
theorem mem_scheduled_of_names {N : Nat} (hN : n < N) {g : Frame} {name : Text}
    (hg : g ∈ scheduled (met o d root N) (loopHead o d root N))
    (hname : g.names = f.names ++ [name]) :
    g ∈ scheduled (met o d root (n + 1)) (loopHead o d root (n + 1)) := by
  induction N, hN using Nat.le_induction with
  | base => exact hg
  | succ N hN ih =>
    rw [met_succ, loopHead_succ] at hg
    cases hqN : (loopHead o d root N).queue with
    | nil =>
      rw [step_of_nil hqN, hqN] at hg
      exact ih (by simpa using hg)
    | cons p more =>
      rw [hqN] at hg
      cases hp : p.entered with
      | true =>
        rw [step_of_entered hqN hp] at hg
        exact ih ((scheduled_leave (o := o) _ hqN hp) ▸ hg)
      | false =>
        obtain ⟨frames, hready, -, hqueue, -⟩ := enter_snd (o := o) hd (loopHead o d root N) p more
        rw [step_of_waiting hqN hp] at hg
        have hnew := (scheduled_enter _ hqN hp hready hqueue).subset hg
        rcases List.mem_append.1 hnew with hold | hnew
        · exact ih hold
        -- Otherwise the directory would have been entered twice.
        · obtain ⟨name', hname'⟩ := (hready g hnew).names
          have hsame : p.names = f.names := List.append_inj_left' (hname'.symm.trans hname) rfl
          have hmet : f ∈ met o d root N :=
            List.mem_filterMap.2 ⟨n, List.mem_range.2 hN, by rw [hq]; rfl⟩
          have hwaiting : f ∈ waiting (met o d root N) := List.mem_filter.2 ⟨hmet, by simp [hf]⟩
          exact absurd hsame.symm ((history hd root N).names_ne_of_waiting hqN hp hwaiting)

/-- A subdirectory that is ever entered was put into the queue when its directory was entered. -/
theorem ready_of_mem_enteredBy {N : Nat} (hN : n < N) {g : Frame} {name : Text}
    (hname : Path.IsName name) (hg : g ∈ enteredBy o d root N)
    (habs : g.absolute = Path.join f.absolute name) :
    Ready o d f (loopHead o d root (n + 1)).active g := by
  have hnames : g.names = f.names ++ [name] := by
    rw [Frame.names, habs, Path.names_join hname, Frame.names]
  have hsched := mem_scheduled_of_names hd hq hf hN (List.mem_append_left _ hg) hnames
  obtain ⟨frames, hready, -, hqueue, -, hactive, -⟩ :=
    enter_snd (o := o) hd (loopHead o d root n) f rest
  rw [met_succ, loopHead_succ, hq, step_of_waiting hq hf] at hsched
  rw [loopHead_succ, step_of_waiting hq hf, hactive]
  rcases List.mem_append.1 ((scheduled_enter _ hq hf hready hqueue).subset hsched) with hold | hnew
  · exact absurd (List.mem_map_of_mem hold) ((history hd root n).names_not_mem hq hf hnames)
  · exact hready g hnew

/-- A subdirectory that is ever entered is found by the system on its path. -/
theorem exists_locate_of_mem_enteredBy {N : Nat} (hN : n < N) {g : Frame} {name : Text}
    (hname : Path.IsName name) (hg : g ∈ enteredBy o d root N)
    (habs : g.absolute = Path.join f.absolute name) : ∃ l, d.locate g.absolute = .ok l := by
  have habove := (ready_of_mem_enteredBy hd hq hf hN hname hg habs).above
  obtain ⟨i, -, hhead⟩ := List.mem_filterMap.1 (List.mem_of_mem_filter hg)
  refine (exists_locate_of_mem_queue hd root i g (List.mem_of_mem_head? hhead)).resolve_left ?_
  rw [habove]
  exact Option.some_ne_none _

variable (hlinks : o.followLinks = true) {N : Nat} (hN : (loopHead o d root N).queue = [])
  {children : List Entry}
  (hchildren : (openScope o d (loopHead o d root n).rules f).children = .ok children)

include hlinks hN hchildren

/-- A listed directory that the filters admit is entered exactly if it is none of the directories
that the walk is in when it finds it. -/
theorem mem_enteredBy_iff_of_listed {e : Entry} (he : e ∈ children) (hdir : e.isDirectory = true)
    (hhidden : e.isHidden = Path.isHiddenName e.name) {m : Location}
    (hm : d.locate (Path.join f.absolute e.name) = .ok m)
    (hadmits : admits o (loopHead o d root (n + 1)) f e.name = true) :
    (∃ g ∈ enteredBy o d root N, g.absolute = Path.join f.absolute e.name) ↔
      some m ∉ (entered (loopHead o d root (n + 1)).queue).map fun g => d.identity? g.absolute := by
  have hlt := lt_of_finished hq hN
  have hname := Disk.isName_of_mem_scan hd (scan_of_openScope hchildren) he
  have hplace : Place.identity? o d (Path.join f.absolute e.name) = some m := by
    rw [Place.identity?, if_pos hlinks, Disk.identity?, hm]
    rfl
  obtain ⟨ls, hn, hs⟩ := exists_levels (o := o) hd root n
  have hactive : some m ∈ (entered (loopHead o d root (n + 1)).queue).map
      (fun g => d.identity? g.absolute) ↔ m ∈ (loopHead o d root (n + 1)).active := by
    rw [hs.active, hn.mem_places_iff hlinks, hs.queue, hn.entered_frames, List.map_map]
    rfl
  rw [hactive]
  constructor
  · rintro ⟨g, hg, habs⟩
    have hready := ready_of_mem_enteredBy hd hq hf hlt hname hg habs
    exact hready.fresh m (by rw [hready.identity, habs, hplace])
  · intro hfresh
    obtain ⟨g, hsub, habs⟩ := subframe?_of_admits (o := o) (d := d) hdir hhidden hadmits
      fun l hl => by
        rw [hplace] at hl
        exact Option.some.inj hl ▸ hfresh
    refine ⟨g, ?_, habs⟩
    have hqueue : g ∈ (loopHead o d root (n + 1)).queue := by
      rw [loopHead_succ, step_of_waiting hq hf] at hsub ⊢
      rw [queue_enter hchildren]
      exact List.mem_append_left _ (List.mem_filterMap.2 ⟨e, he, hsub⟩)
    have hwaiting : g.entered = false := (ready_of_subframe? hname hsub).1.entered
    have hsched := mem_scheduled_of_le hd hlt (List.mem_append_right
      (waiting (met o d root (n + 1))) (List.mem_filter.2 ⟨hqueue, by simp [hwaiting]⟩))
    have hall : scheduled (met o d root N) (loopHead o d root N) = enteredBy o d root N := by
      rw [scheduled, hN]
      exact List.append_nil _
    exact hall ▸ hsched

/-- **What is left out.** A subdirectory that the filters admit, or a link to one, is entered
exactly if it is none of the directories that the walk is in when it finds it, unless it is a link
and there are more links on the path to it than the system follows. -/
theorem mem_enteredBy_iff {l : Location} (hl : d.locate f.absolute = .ok l)
    {entries : List (Text × Node)} (hget : d.root.get? l = some (.directory entries))
    {name : Text} {node : Node} (hmem : (name, node) ∈ entries) {m : Location}
    (hleads : d.LeadsToDirectory l name m)
    (hadmits : admits o (loopHead o d root (n + 1)) f name = true) :
    (∃ g ∈ enteredBy o d root N, g.absolute = Path.join f.absolute name) ↔
      (node.isLink = true → d.locate (Path.join f.absolute name) ≠ .error .tooManyLinks) ∧
        some m ∉ (entered (loopHead o d root (n + 1)).queue).map
          fun g => d.identity? g.absolute := by
  have hname : Path.IsName name := (hd.entries hget).2 _ hmem
  rcases hleads.listed hl hd hget hmem with ⟨hlisted, hfound⟩ | ⟨-, hlink, hmany⟩
  · obtain ⟨e, he, rfl, hhidden, hkind⟩ :=
      Disk.exists_mem_scan (scan_of_openScope hchildren) hl hget hmem
    rw [hlinks, hlisted] at hkind
    have hfollowed : node.isLink = true →
        d.locate (Path.join f.absolute e.name) ≠ .error .tooManyLinks := by
      rw [hfound]
      rintro - ⟨⟩
    rw [and_iff_right hfollowed]
    exact mem_enteredBy_iff_of_listed hd hq hf hlinks hN hchildren he hkind hhidden hfound hadmits
  · refine iff_of_false ?_ fun hboth => hboth.1 hlink hmany
    rintro ⟨g, hg, habs⟩
    obtain ⟨k, hk⟩ := exists_locate_of_mem_enteredBy hd hq hf (lt_of_finished hq hN) hname hg habs
    rw [habs, hmany] at hk
    cases hk

end Entered

end Traversal

/-! ## How deep a reported path lies -/

/-- A reported path goes through no more directories than there are. -/
theorem Walker.length_of_mem_results {w : Walker} {d : Disk} (hd : d.WellFormed) {root : Text}
    (hroot : d.isDirectory root = true) : ∀ r ∈ w.results d root,
      ∃ rest, Path.names r.path = Path.names root ++ rest ∧
        rest.length ≤ d.root.directories.length := by
  intro r hr
  have hstart := Place.way_root w.options d root
  have hall := mem_results_of_isDirectory hd hroot hr
  cases hout : w.options.output with
  | files =>
    rw [hout] at hall
    obtain ⟨way, s, rules, children, hroute, henter, e, he, -, rfl⟩ :=
      Context.exists_route_of_mem_results hall
    obtain ⟨own, -, -, hscan⟩ := Context.enter_eq_ok henter
    obtain ⟨ls, hlen, hway⟩ := hroute.exists_way hd hstart
    obtain ⟨l, entries, node, hl, hget, -⟩ := Disk.mem_scan hscan he
    -- The directory that holds the file differs from those above it.
    have hcount := Node.length_le_directories (List.nodup_cons.2 ⟨hway.fresh l hl, hway.nodup⟩)
      (List.forall_mem_cons.2 ⟨by rw [hget]; rfl, hway.directory⟩)
    refine ⟨way ++ [e.name], ?_, ?_⟩
    · rw [Context.names_reported hd hscan he, hroute.path_eq, Path.names_below (hroute.isName hd),
        List.append_assoc]
      rfl
    · rw [List.length_cons, List.append_nil, hlen] at hcount
      rwa [List.length_append, List.length_singleton]
  | directories =>
    rw [hout] at hall
    obtain ⟨p, hp, rfl⟩ := hall
    obtain ⟨way, s, hroute, rfl⟩ := Context.exists_route_of_mem_live hp
    obtain ⟨ls, hlen, hway⟩ := hroute.exists_way hd hstart
    refine ⟨way, ?_, ?_⟩
    · rw [Path.names_plain, hroute.path_eq, Path.names_below (hroute.isName hd)]
      rfl
    · have hcount := Node.length_le_directories hway.nodup hway.directory
      rwa [List.append_nil, hlen] at hcount

/-! ## The whole walk -/

namespace Traversal

/-- More than enough steps make no difference, and then the queue is empty. -/
theorem run_enoughSteps {σ : Type} {r : Receiver σ} (hr : r.Steady) (o : Options) {d : Disk}
    (hd : d.WellFormed) (root : Text) {s : σ} (hs : r.disk s = d) {steps : Nat}
    (hsteps : enoughSteps d.root.size ≤ steps) :
    Walk.run o r steps (start o d root) s =
        Walk.run o r (enoughSteps d.root.size) (start o d root) s ∧
      ∀ u, (Walk.run o r steps (start o d root) s).2 = some u →
        u = loopHead o d root steps ∧ u.queue = [] := by
  obtain ⟨n, events, last, hn, hleads, hlast, -⟩ := leads_start o hd root
  have hrun := Walk.run_of_leads hr hleads hlast (hn.trans hsteps) hs
  refine ⟨by rw [hrun, Walk.run_of_leads hr hleads hlast hn hs], fun u hu => ?_⟩
  have hhead : u = loopHead o d root steps := Walk.run_eq_loopHead hr hs hu
  refine ⟨hhead, ?_⟩
  rw [hhead]
  have hend := queue_loopHead_enoughSteps (o := o) hd root
  rw [loopHead_of_finished hend hsteps, hend]

/-- Where errors are reported, nothing ends the walk before its queue is empty. -/
theorem run_collected {o : Options} (hreport : o.onError = .report) {d : Disk} (hd : d.WellFormed)
    (root : Text) :
    (Walk.run o Collected.receiver (enoughSteps d.root.size) (start o d root) { disk := d }).2 =
      some (loopHead o d root (enoughSteps d.root.size)) := by
  obtain ⟨n, events, last, hn, hleads, hlast, hshown⟩ := leads_start o hd root
  have hfinal : ∀ e ∈ shown events, e.isFinal = false := by
    intro e he
    rw [hshown, traced] at he
    apply isFinal_walk hreport d o.descends (d.root.size + 1) (Context.root o d root)
    cases hout : o.output with
    | files =>
      rw [hout] at he
      exact he
    | directories =>
      rw [hout] at he
      exact List.mem_of_mem_filter he
  have hrun : Walk.run o Collected.receiver (enoughSteps d.root.size) (start o d root)
      { disk := d } = _ := Walk.run_of_leads Collected.steady_receiver hleads hlast hn rfl
  have hsome : (Walk.run o Collected.receiver (enoughSteps d.root.size) (start o d root)
      { disk := d }).2 = some last := by
    rw [hrun, Collected.feed_receiver (c := { disk := d }) rfl hfinal]
  rw [hsome, Walk.run_eq_loopHead Collected.steady_receiver rfl hsome]
  rfl

/-- **Following links.** A walk that follows links ends, whatever the links are. The directories
that it has entered and not left are those on a path down from the root, and they are all different,
so no reported path goes through more directories than there are. Where errors are reported, a
subdirectory that the filters admit, or a link to one, is entered exactly if it is none of the
directories on the path to it, and it is no link to which the path has more links than the system
follows. -/
theorem links_followed_up_to_limit {o : Options} (hlinks : o.followLinks = true) {d : Disk}
    (hd : d.WellFormed) (root : Text) :
    (∀ (σ : Type) (r : Receiver σ), r.Steady → ∀ s, r.disk s = d →
      ∀ steps, enoughSteps d.root.size ≤ steps →
        Walk.run o r steps (start o d root) s =
            Walk.run o r (enoughSteps d.root.size) (start o d root) s ∧
          ∀ u, (Walk.run o r steps (start o d root) s).2 = some u →
            u = loopHead o d root steps ∧ u.queue = []) ∧
    (∀ n,
      ((entered (loopHead o d root n).queue).IsChain fun f g => f.above = some g.key) ∧
      (∀ f ∈ (entered (loopHead o d root n).queue).getLast?, f = (rootFrame o d root).opened) ∧
      ((entered (loopHead o d root n).queue).map fun f => d.identity? f.absolute).Nodup) ∧
    (∀ w : Walker, w.options = o → d.isDirectory root = true → ∀ r ∈ w.results d root,
      ∃ rest, Path.names r.path = Path.names root ++ rest ∧
        rest.length ≤ d.root.directories.length) ∧
    (o.onError = .report →
      (Walk.run o Collected.receiver (enoughSteps d.root.size) (start o d root) { disk := d }).2 =
        some (loopHead o d root (enoughSteps d.root.size)) ∧
      ∀ n f rest children, (loopHead o d root n).queue = f :: rest → f.entered = false →
        (openScope o d (loopHead o d root n).rules f).children = .ok children →
        ∃ l entries, d.locate f.absolute = .ok l ∧ d.root.get? l = some (.directory entries) ∧
          ∀ name node, (name, node) ∈ entries → ∀ m, d.LeadsToDirectory l name m →
            admits o (loopHead o d root (n + 1)) f name = true →
              ((∃ g ∈ enteredBy o d root (enoughSteps d.root.size),
                  g.absolute = Path.join f.absolute name) ↔
                (node.isLink = true →
                  d.locate (Path.join f.absolute name) ≠ .error .tooManyLinks) ∧
                some m ∉ (entered (loopHead o d root (n + 1)).queue).map
                  fun g => d.identity? g.absolute)) := by
  refine ⟨?_, entered_queue hd hlinks root, ?_, fun hreport =>
    ⟨run_collected hreport hd root, ?_⟩⟩
  · intro σ r hr s hs steps hsteps
    exact run_enoughSteps hr o hd root hs hsteps
  · rintro w - hroot
    exact Walker.length_of_mem_results hd hroot
  · intro n f rest children hq hf hchildren
    have hend := queue_loopHead_enoughSteps (o := o) hd root
    obtain ⟨entries, hentries, -⟩ := Disk.scan_eq_ok (scan_of_openScope hchildren)
    obtain ⟨l, hl, hget⟩ := Disk.entries_eq_ok hentries
    refine ⟨l, entries, hl, hget, fun name node hmem m hleads hadmits => ?_⟩
    exact mem_enteredBy_iff hd hq hf hlinks hend hchildren hl hget hmem hleads hadmits

/-- A link to the root in a directory, which is a loop, and another link to that directory, which is
none. The second one is entered after the directory has been left. -/
theorem links_followed_up_to_limit_two_links :
    let o : Options := { followLinks := true }
    let d : Disk := ⟨.directory [("a", .directory [("up", .link "..")]), ("b", .link "a")], [], []⟩
    (¬∃ g ∈ enteredBy o d "/" (enoughSteps d.root.size), g.absolute = "/a/up") ∧
      ∃ g ∈ enteredBy o d "/" (enoughSteps d.root.size), g.absolute = "/b" := by
  intro o d
  obtain ⟨-, -, -, hreport⟩ := links_followed_up_to_limit (o := o) rfl (d := d) (by decide) "/"
  obtain ⟨-, hentered⟩ := hreport rfl
  let root := rootFrame o d "/"
  let a : Frame := ⟨"/a", "/a", some [], 0, some ["a"], 0, false⟩
  let b : Frame := ⟨"/b", "/b", some [], 0, some ["a"], 0, false⟩
  obtain ⟨l, entries, hl, hget, hinA⟩ := hentered 1 a [b, root.opened]
    [⟨"up", "/a/up", true, false⟩] (by cbv) rfl (by cbv)
  have hlA : d.locate a.absolute = .ok ["a"] := by cbv
  have hgetA : d.root.get? ["a"] = some (.directory [("up", .link "..")]) := by cbv
  obtain rfl := Except.ok.inj (hlA.symm.trans hl)
  obtain rfl := Node.directory.inj (Option.some.inj (hgetA.symm.trans hget))
  obtain ⟨k, more, hk, hmore, hinRoot⟩ := hentered 0 root []
    [⟨"a", "/a", true, false⟩, ⟨"b", "/b", true, false⟩] rfl rfl (by cbv)
  have hkRoot : d.locate root.absolute = .ok [] := by cbv
  obtain rfl := Except.ok.inj (hkRoot.symm.trans hk)
  obtain rfl := Node.directory.inj (Option.some.inj hmore)
  have hup := hinA "up" (.link "..") List.mem_cons_self [] ⟨⟨1, by cbv⟩, rfl⟩ (by cbv)
  have hb := hinRoot "b" (.link "a") (by simp) ["a"] ⟨⟨1, by cbv⟩, by cbv⟩ (by cbv)
  have hplacesA : ((entered (loopHead o d "/" 2).queue).map fun g => d.identity? g.absolute) =
      [a.identity, some []] := by cbv
  have hplacesRoot : ((entered (loopHead o d "/" 1).queue).map fun g => d.identity? g.absolute) =
      [some []] := by cbv
  have hbFound : d.locate "/b" = .ok ["a"] := by cbv
  refine ⟨fun h => (hup.1 h).2 ?_, hb.2 ⟨fun _ => ?_, ?_⟩⟩
  · change some ([] : Location) ∈ List.map _ _
    rw [hplacesA]
    decide
  · change d.locate "/b" ≠ _
    rw [hbFound]
    rintro ⟨⟩
  · change some (["a"] : Location) ∉ List.map _ _
    rw [hplacesRoot]
    decide

/-- A file system with a link `l` to the directory that it is in, and with a link `m` beside the
directory to which it leads. -/
def linkedDisk : Disk :=
  ⟨.directory [("l", .link "."),
    ("r", .directory [("b", .directory [("x", .file [])]), ("m", .link "b")])], [], []⟩

/-- A path to the directory `r` that leads through as many links as the system follows. -/
def linkedRoot : Text := (List.replicate Disk.maxLinks ("l/" : Text)).flatten ++ "r"

set_option maxRecDepth 4000 in
/-- **A link is left out that is no loop.** The link `m` leads to a directory that the walk is not
in, but the path to it has one link more than the system follows. So `m` is not entered, and it is
reported as a file. -/
theorem links_drop_more_than_loops :
    let o : Options := { followLinks := true }
    (∃ f rest children, (loopHead o linkedDisk linkedRoot 0).queue = f :: rest ∧
      f.entered = false ∧
      (openScope o linkedDisk (loopHead o linkedDisk linkedRoot 0).rules f).children =
        .ok children ∧
      linkedDisk.locate f.absolute = .ok ["r"] ∧
      linkedDisk.LeadsToDirectory ["r"] "m" ["r", "b"] ∧
      admits o (loopHead o linkedDisk linkedRoot 1) f "m" = true ∧
      some (["r", "b"] : Location) ∉ (entered (loopHead o linkedDisk linkedRoot 1).queue).map
        (fun g => linkedDisk.identity? g.absolute) ∧
      ¬∃ g ∈ enteredBy o linkedDisk linkedRoot (enoughSteps linkedDisk.root.size),
        g.absolute = Path.join f.absolute "m") ∧
    ({ options := o } : Walker).results linkedDisk linkedRoot =
      [⟨linkedRoot ++ "/m", false⟩, ⟨linkedRoot ++ "/b/x", false⟩] := by
  intro o
  let f := rootFrame o linkedDisk linkedRoot
  have hd : linkedDisk.WellFormed := by decide
  have hend := queue_loopHead_enoughSteps (o := o) hd linkedRoot
  have hchildren : (openScope o linkedDisk (loopHead o linkedDisk linkedRoot 0).rules f).children =
      .ok [⟨"b", linkedRoot ++ "/b", true, false⟩, ⟨"m", linkedRoot ++ "/m", false, false⟩] := by
    cbv
  have hlocate : linkedDisk.locate f.absolute = .ok ["r"] := by cbv
  let entries : List (Text × Node) := [("b", .directory [("x", .file [])]), ("m", .link "b")]
  have hget : linkedDisk.root.get? ["r"] = some (.directory entries) := rfl
  have hmem : (("m" : Text), Node.link "b") ∈ entries := List.mem_cons_of_mem _ List.mem_cons_self
  have hleads : linkedDisk.LeadsToDirectory ["r"] "m" ["r", "b"] := ⟨⟨1, by cbv⟩, by cbv⟩
  have hadmits : admits o (loopHead o linkedDisk linkedRoot 1) f "m" = true := by cbv
  have hmany : linkedDisk.locate (Path.join f.absolute "m") = .error .tooManyLinks := by cbv
  have hplaces : (entered (loopHead o linkedDisk linkedRoot 1).queue).map
      (fun g => linkedDisk.identity? g.absolute) = [some (["r"] : Location)] := by cbv
  have hdropped : ¬∃ g ∈ enteredBy o linkedDisk linkedRoot (enoughSteps linkedDisk.root.size),
      g.absolute = Path.join f.absolute "m" := by
    rw [mem_enteredBy_iff hd rfl rfl rfl hend hchildren hlocate hget hmem hleads hadmits]
    exact fun hboth => hboth.1 rfl hmany
  refine ⟨⟨f, [], _, rfl, rfl, hchildren, hlocate, hleads, hadmits, ?_, hdropped⟩, by cbv⟩
  rw [hplaces]
  decide

end Traversal

end TreeSieve
