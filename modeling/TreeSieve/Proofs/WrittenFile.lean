import TreeSieve.Proofs.EventSequence

/-!
# A file that is written during a walk

While a walk goes on, its records can go to a file of the very file system that is walked. At each
moment the file system is then the one of the beginning but for the content of that file
(`Disk.AlikeBut`). Wildcards, listings and links do not show the difference
(`Disk.AlikeBut.resolve`), so only a rule file can let it in: a walk for which the written file is
no rule file (`Walk.Spares`) is the walk of the file system as it was at the beginning
(`Walk.many_frozen`).
-/

namespace TreeSieve

open TreeSieve.Sym

/-! ## Wildcards -/

namespace Wildcard

variable {d d' : Disk} (h : d.Resembles d')
  (hnames : ∀ only directory, namesIn d' only directory = namesIn d only directory)
  (hsize : d'.root.size = d.root.size)

include hnames in
theorem below_congr (only : Bool) (levels : Nat) (directory : Text) :
    below d' only levels directory = below d only levels directory := by
  induction levels generalizing directory with
  | zero => rfl
  | succ levels ih => simp only [below, hnames, ih]

include h hnames hsize

theorem matchesIn_congr (only : Bool) (directory name : Text) :
    matchesIn d' only directory name = matchesIn d only directory name := by
  unfold matchesIn
  split
  · rw [levels, levels, hsize, below_congr hnames]
  · split
    · rw [hnames]
    · split
      · rw [h.isDirectory]
      · rw [Disk.hasEntry, Disk.hasEntry, h.find]

theorem paths_congr (only : Bool) (pattern : Text) :
    paths d' only pattern = paths d only pattern := by
  have hmatches := matchesIn_congr h hnames hsize
  induction only, pattern using paths.induct d with
  | case1 only pattern hplain =>
    conv_lhs => rw [paths, if_pos hplain, h.isDirectory, Disk.hasEntry, h.find]
    conv_rhs => rw [paths, if_pos hplain, Disk.hasEntry]
  | case2 only pattern directory hwild hshorter ih =>
    conv_lhs => rw [paths, if_neg hwild, if_pos hshorter, ih]
    conv_rhs => rw [paths, if_neg hwild, if_pos hshorter]
    simp only [hmatches]
    rfl
  | case3 only pattern directory hwild hshorter =>
    conv_lhs => rw [paths, if_neg hwild, if_neg hshorter]
    conv_rhs => rw [paths, if_neg hwild, if_neg hshorter]
    simp only [hmatches]

/-- Wildcards have the same matches where directories enumerate the same names. -/
theorem expand_congr (pattern : Text) : expand d' pattern = expand d pattern := by
  rw [expand, expand, paths_congr h hnames hsize]

end Wildcard

namespace Disk

/-! ## File systems that are alike but for a file -/

/-- A file system that is like another one but for the content of the file at a place. -/
inductive AlikeBut (d : Disk) (l : Location) : Disk → Prop where
  | same : AlikeBut d l d
  | overwritten {content : List UInt8} (h : d.root.get? l = some (.file content))
      (bytes : List UInt8) : AlikeBut d l (d.overwrite l bytes)

/-- What is listed of a directory depends on the names and the kinds of its entries. -/
theorem Resembles.namesIn {d d' : Disk} (h : d.Resembles d') {directory : Text}
    (only : Bool) {entries entries' : List (Text × Node)}
    (hsame : entries'.map (fun e => (e.1, e.2.kind)) = entries.map fun e => (e.1, e.2.kind)) :
    (entries'.filter fun e => !only || d'.entryIsDirectory directory true e).map (·.1) =
      (entries.filter fun e => !only || d.entryIsDirectory directory true e).map (·.1) := by
  induction entries generalizing entries' with
  | nil =>
    obtain rfl : entries' = [] := by simpa using hsame
    rfl
  | cons e rest ih =>
    obtain ⟨e', rest', rfl, hhead, hrest⟩ := List.map_eq_cons_iff.1 hsame
    obtain ⟨name, node⟩ := e
    obtain ⟨name', node'⟩ := e'
    obtain ⟨rfl, hkind⟩ := Prod.mk.inj hhead
    simp only [List.filter_cons, h.entryIsDirectory hkind]
    split
    · rw [List.map_cons, List.map_cons, ih hrest]
    · exact ih hrest

namespace AlikeBut

theorem of_append {d d' : Disk} {l : Location} {bytes : List UInt8}
    (h : d.append l bytes = .ok d') : d.AlikeBut l d' := by
  unfold Disk.append at h
  split at h
  · next content hfile =>
    obtain rfl := Except.ok.inj h
    exact .overwritten hfile _
  · split at h
    · exact Except.ok.inj h ▸ .same
    · cases h
  · exact Except.ok.inj h ▸ .same

variable {d d' : Disk} {l : Location} (h : d.AlikeBut l d')

include h

theorem trans {d'' : Disk} (h' : d'.AlikeBut l d'') : d.AlikeBut l d'' := by
  cases h with
  | same => exact h'
  | overwritten hfile bytes =>
    cases h' with
    | same => exact .overwritten hfile bytes
    | overwritten _ more =>
      rw [overwrite_overwrite hfile]
      exact .overwritten hfile more

theorem resembles : d.Resembles d' := by
  cases h with
  | same => exact .refl d
  | overwritten hfile bytes => exact resembles_overwrite hfile bytes

theorem wellFormed (hd : d.WellFormed) : d'.WellFormed := by
  cases h with
  | same => exact hd
  | overwritten hfile bytes => exact hd.overwrite hfile bytes

theorem size : d'.root.size = d.root.size := by
  cases h with
  | same => rfl
  | overwritten hfile bytes => exact size_overwrite hfile bytes

theorem read {path : Text} (hpath : d.locate path ≠ .ok l) : d'.read path = d.read path := by
  cases h with
  | same => rfl
  | overwritten hfile bytes =>
    cases hm : d.locate path with
    | error fault => rw [read_eq, read_eq, (resembles_overwrite hfile bytes).locate, hm]
    | ok m => exact read_overwrite_of_ne hfile bytes hm fun heq => hpath (heq ▸ hm)

/-- Directories enumerate the same names. -/
theorem namesIn (only : Bool) (directory : Text) :
    Wildcard.namesIn d' only directory = Wildcard.namesIn d only directory := by
  have hresembles := h.resembles
  cases h with
  | same => rfl
  | overwritten hfile bytes =>
    have hentries := hresembles.entries (if directory = [] then Path.here else directory)
    unfold Wildcard.namesIn
    simp only
    cases he : d.entries (if directory = [] then Path.here else directory) with
    | error fault =>
      rw [he] at hentries
      simp only [hentries]
      cases fault <;> rfl
    | ok entries =>
      rw [he] at hentries
      obtain ⟨entries', he', -⟩ := hentries
      obtain ⟨m, hm, hget⟩ := entries_eq_ok he
      obtain ⟨m', hm', hget'⟩ := entries_eq_ok he'
      obtain rfl : m = m' := by
        rw [hresembles.locate, hm] at hm'
        exact Except.ok.inj hm'
      obtain ⟨found, hfound, hsame⟩ := Node.exists_entries_put_file hfile bytes hget
      obtain rfl : found = entries' := by
        have hboth := hfound.symm.trans hget'
        simpa using hboth
      rw [he']
      exact congrArg Except.ok (hresembles.namesIn only hsame)

/-- **Arguments stand for the same roots.** -/
theorem resolve (argument : RootArgument) : argument.resolve d' = argument.resolve d := by
  cases argument with
  | given _ | literal _ => rfl
  | pattern text =>
    rw [RootArgument.resolve, RootArgument.resolve,
      Wildcard.expand_congr h.resembles h.namesIn h.size]

end AlikeBut

end Disk

/-! ## Walks that do not read the file -/

/-- The roots that arguments stand for, up to the first argument that the system does not take, and
why it does not. -/
def RootArgument.resolveAll (d : Disk) : List RootArgument → List Text × Option Fault
  | [] => ([], none)
  | argument :: rest =>
    match argument.resolve d with
    | .ok (paths, _) => (paths ++ (resolveAll d rest).1, (resolveAll d rest).2)
    | .error fault => ([], some fault)

theorem RootArgument.resolveAll_of_mapM {d : Disk} {args : List RootArgument}
    {found : List (List Text)} (h : args.mapM (RootArgument.roots d) = .ok found) :
    resolveAll d args = (found.flatten, none) := by
  induction args generalizing found with
  | nil =>
    obtain rfl := Except.ok.inj h
    rfl
  | cons argument rest ih =>
    rw [List.mapM_cons] at h
    obtain ⟨paths, hpaths, h⟩ := exists_of_bind_eq_ok h
    obtain ⟨more, hmore, h⟩ := exists_of_bind_eq_ok h
    obtain rfl := Except.ok.inj h
    rw [RootArgument.roots] at hpaths
    rw [resolveAll, ih hmore]
    cases hresolve : argument.resolve d with
    | error fault =>
      rw [hresolve] at hpaths
      cases hpaths
    | ok found =>
      rw [hresolve] at hpaths
      obtain rfl := Except.ok.inj hpaths
      rfl

/-- Where path arguments are resolved at once, they stand for the same roots. -/
theorem RootArgument.resolveAll_of_resolvePaths {d : Disk} {patterns literals roots : List Text}
    (h : resolvePaths d patterns literals = .ok roots) :
    resolveAll d (patterns.map RootArgument.pattern ++ literals.map RootArgument.literal) =
      (roots, none) := by
  obtain ⟨found, hfound, h⟩ := exists_of_bind_eq_ok h
  obtain rfl := Except.ok.inj h
  exact resolveAll_of_mapM hfound

/-- The rule file of no directory below a root is the file at a place. -/
def Walk.Spares (o : Options) (d : Disk) (l : Location) (root : Text) : Prop :=
  ∀ name, o.ruleFileName = some name → ∀ way : List Text, (∀ n ∈ way, Path.IsName n) →
    d.locate (Path.join (Path.below (d.absolute root) way) name) ≠ .ok l

/-- A walk with plain names of rule files spares what lies outside of its root. -/
theorem Walk.spares_of_outside {o : Options} {d : Disk} {l : Location} {root : Text}
    (hname : ∀ name, o.ruleFileName = some name → Path.IsName name)
    (houtside : ∀ way : List Text, (∀ n ∈ way, Path.IsName n) →
      d.locate (Path.below (d.absolute root) way) ≠ .ok l) : Spares o d l root := by
  intro name hrule way hway
  rw [← Path.below_concat]
  exact houtside _ (List.forall_mem_append.2
    ⟨hway, List.forall_mem_singleton.2 (hname name hrule)⟩)

/-- Without links, a name leads to a place of this name. -/
theorem Disk.getLast?_of_locate_join {d : Disk} (hlinks : d.root.isLinkFree = true)
    {p name : Text} (hname : Path.IsName name) {l : Location}
    (h : d.locate (Path.join p name) = .ok l) : l.getLast? = some name := by
  obtain ⟨-, -, hfollow⟩ := locate_eq_ok h
  rw [Path.steps_join hname] at hfollow
  obtain ⟨left, hleft⟩ := follow_append d maxLinks (start (Path.join p name) d.workingDirectory)
    ((Text.pieces slash p).filter (· ≠ []))
  rw [hleft] at hfollow
  cases hm : d.follow .target maxLinks (start (Path.join p name) d.workingDirectory)
      ((Text.pieces slash p).filter (· ≠ [])) with
  | error fault =>
    rw [hm] at hfollow
    cases hfollow
  | ok m =>
    rw [hm] at hfollow
    have hlast : d.follow .target left m [name] = .ok l := hfollow
    rw [follow] at hlast
    split at hlast
    · next entries hentries =>
      rw [if_neg hname.2.1, if_neg hname.2.2.1] at hlast
      split at hlast
      · next target hlook =>
        have hlink : d.root.get? (m ++ [name]) = some (.link target) := by
          rw [Node.get?_append, hentries, Option.bind_some, Node.get?_directory_cons, hlook]
          simp
        cases Node.isLink_of_isLinkFree hlinks hlink
      · obtain rfl := Except.ok.inj ((Disk.follow_nil ..).symm.trans hlast)
        exact List.getLast?_concat
      · split at hlast
        · cases hlast
        · split at hlast
          · next hplace => cases hplace.2
          · cases hlast
    · cases hlast

/-- Where there are no links, a walk spares a file that is not named like the rule files. -/
theorem Walk.spares_of_name {o : Options} {d : Disk} {l : Location}
    (hlinks : d.root.isLinkFree = true)
    (hname : ∀ name, o.ruleFileName = some name → Path.IsName name ∧ l.getLast? ≠ some name)
    (root : Text) : Spares o d l root :=
  fun name hrule _ _ hlocate =>
    (hname name hrule).2 (Disk.getLast?_of_locate_join hlinks (hname name hrule).1 hlocate)

namespace Traversal

variable {o : Options} {d d' : Disk} {l : Location} {root : Text} {t : Traversal}

/-- The directories in the queue are reached with names from the root. -/
def StaysBelow (d : Disk) (root : Text) (t : Traversal) : Prop :=
  ∀ f ∈ t.queue, ∃ way : List Text, (∀ n ∈ way, Path.IsName n) ∧
    f.absolute = Path.below (d.absolute root) way

theorem staysBelow_start (o : Options) (d : Disk) (root : Text) :
    (start o d root).StaysBelow d root :=
  List.forall_mem_singleton.2 ⟨[], by simp, rfl⟩

theorem StaysBelow.step (hd : d.WellFormed) (h : t.StaysBelow d root) :
    (step o d t).2.StaysBelow d root := by
  cases hq : t.queue with
  | nil =>
    rw [step_of_nil hq]
    exact h
  | cons f rest =>
    unfold StaysBelow at h
    rw [hq] at h
    obtain ⟨⟨way, hway, habs⟩, hrest⟩ := List.forall_mem_cons.1 h
    cases hf : f.entered with
    | true =>
      rw [step_of_entered hq hf]
      exact hrest
    | false =>
      obtain ⟨frames, hready, -, hqueue, -⟩ := enter_snd (o := o) hd t f rest
      rw [step_of_waiting hq hf]
      intro g hg
      rw [hqueue] at hg
      rcases List.mem_append.1 hg with hnew | hold
      · obtain ⟨name, hname, hjoin⟩ := (hready g hnew).absolute
        refine ⟨way ++ [name], ?_, ?_⟩
        · exact List.forall_mem_append.2 ⟨hway, List.forall_mem_singleton.2 hname⟩
        · rw [hjoin, habs, Path.below_concat]
      · rcases List.mem_cons.1 hold with rfl | hold
        · exact ⟨way, hway, habs⟩
        · exact hrest g hold

variable (halike : d.AlikeBut l d')

include halike

theorem start_alike (o : Options) (root : Text) : start o d' root = start o d root := by
  have h := halike.resembles
  rw [start, start, h.absolute, h.identity?]

theorem ruleFile_alike {f : Frame} (hspares : ∀ name, o.ruleFileName = some name →
    d.locate (Path.join f.absolute name) ≠ .ok l) : ruleFile o d' f = ruleFile o d f := by
  rw [ruleFile, ruleFile]
  cases hname : o.ruleFileName with
  | none => rfl
  | some name =>
    simp only [halike.resembles.isFile, halike.read (hspares name hname)]

theorem schedule_alike (t : Traversal) (f : Frame) : schedule o d' t f = schedule o d t f := by
  funext e excludedBy
  simp only [schedule, halike.resembles.identity?]

/-- **One step** does not show what is written, unless it comes to a directory whose rule file is
written. -/
theorem step_alike (hd : d.WellFormed) (h : t.StaysBelow d root)
    (hspares : Walk.Spares o d l root) : step o d' t = step o d t := by
  unfold step
  split
  · rfl
  · next f rest hq =>
    split
    · rfl
    · obtain ⟨way, hway, habs⟩ := h f (hq ▸ List.mem_cons_self)
      have hfile : ruleFile o d' f = ruleFile o d f :=
        ruleFile_alike halike fun name hname => habs ▸ hspares name hname way hway
      have hscope : openScope o d' t.rules f = openScope o d t.rules f := by
        simp only [openScope, hfile, halike.resembles.scan hd (halike.wellFormed hd)]
      have hvisit : ∀ t, visit o d' t f = visit o d t f := by
        intro t
        funext harvest e
        simp only [visit, schedule_alike halike]
      simp only [enter, hscope, hvisit]

end Traversal

namespace Receiver

variable {σ : Type}

/-- The receiver that shows the file system as it is in one moment. -/
def frozen (r : Receiver σ) (d : Disk) : Receiver σ where
  disk _ := d
  receive := r.receive

@[simp] theorem frozen_disk (r : Receiver σ) (d : Disk) (s : σ) : (r.frozen d).disk s = d := rfl

@[simp] theorem feed_frozen (r : Receiver σ) (d : Disk) (s : σ) (events : List Event) :
    (r.frozen d).feed s events = r.feed s events := by
  induction events generalizing s with
  | nil => rfl
  | cons e rest ih =>
    rw [feed, feed]
    simp only [ih]
    rfl

theorem steady_frozen (r : Receiver σ) (d : Disk) : (r.frozen d).Steady := fun _ _ => rfl

theorem distinct_frozen (r : Receiver σ) (d : Disk) : (r.frozen d).distinct = r.distinct.frozen d :=
  rfl

end Receiver

namespace Walk

variable {σ : Type} {r : Receiver σ} {o : Options} {d : Disk} {l : Location} {s : σ}
  (hd : d.WellFormed) (hr : r.Keeps (d.AlikeBut l))

include hd hr

theorem run_frozen {root : Text} (hspares : Spares o d l root) {t : Traversal}
    (ht : t.StaysBelow d root) (hs : d.AlikeBut l (r.disk s)) (steps : Nat) :
    run o (r.frozen d) steps t s = run o r steps t s := by
  induction steps generalizing t s with
  | zero => rfl
  | succ steps ih =>
    have hafter := hr.feed hs (t.step o d).1
    simp only [run, Receiver.frozen_disk, Receiver.feed_frozen,
      Traversal.step_alike hs hd ht hspares]
    split
    · rfl
    · cases hfeed : r.feed s (t.step o d).1 with
      | mk s' goesOn =>
        rw [hfeed] at hafter
        cases goesOn with
        | false => rfl
        | true => exact ih (ht.step hd) hafter

theorem tree_frozen {path : Text} (hspares : Spares o d l path) (hs : d.AlikeBut l (r.disk s)) :
    tree o (r.frozen d) path s = tree o r path s := by
  have hstart := Traversal.staysBelow_start o d path
  simp only [tree, Receiver.frozen_disk, Receiver.feed_frozen, hs.size, Traversal.start_alike hs,
    run_frozen hd hr hspares hstart hs]

theorem root_frozen {path : Text} (hspares : Spares o d l path) (hs : d.AlikeBut l (r.disk s)) :
    root o (r.frozen d) path s = root o r path s := by
  have hfile : singleFile o (r.disk s) path = singleFile o d path := by
    simp only [singleFile, hs.resembles.absolute]
  have hafter := hr.feed hs [.note (.walking path)]
  simp only [root, Receiver.frozen_disk, Receiver.feed_frozen, hs.resembles.has,
    hs.resembles.isDirectory, hfile]
  split
  · cases hfeed : r.feed s [.note (.walking path)] with
    | mk s' goesOn =>
      rw [hfeed] at hafter
      cases goesOn with
      | false => rfl
      | true => simp only [tree_frozen hd hr hspares hafter]
  · rfl

omit hd in
/-- A part of a walk keeps the file system alike, since it is nothing but events. -/
theorem HandsOver.alike {part : ∀ τ : Type, Receiver τ → τ → τ × Bool} {events : List Event}
    (h : HandsOver r s part events) (hs : d.AlikeBut l (r.disk s)) :
    d.AlikeBut l (r.disk (part σ r s).1) := by
  rw [h (.refl r) s rfl]
  exact hr.feed hs events

theorem roots_frozen {paths : List Text} (hspares : ∀ path ∈ paths, Spares o d l path)
    (hs : d.AlikeBut l (r.disk s)) : roots o (r.frozen d) paths s = roots o r paths s := by
  induction paths generalizing s with
  | nil => rfl
  | cons path rest ih =>
    obtain ⟨hpath, hrest⟩ := List.forall_mem_cons.1 hspares
    obtain ⟨events, hevents, -⟩ := exists_handsOver_root o r s path
    have hafter := hevents.alike hr hs
    rw [roots, roots, root_frozen hd hr hpath hs]
    cases hroot : root o r path s with
    | mk s' goesOn =>
      rw [hroot] at hafter
      cases goesOn with
      | false => rfl
      | true => exact ih hrest hafter

theorem arguments_frozen {args : List RootArgument}
    (hspares : ∀ path ∈ (RootArgument.resolveAll d args).1, Spares o d l path)
    (hs : d.AlikeBut l (r.disk s)) :
    arguments o (r.frozen d) args s = arguments o r args s := by
  induction args generalizing s with
  | nil => rfl
  | cons argument rest ih =>
    rw [RootArgument.resolveAll] at hspares
    simp only [arguments, Receiver.frozen_disk, Receiver.feed_frozen, hs.resolve]
    cases hresolve : argument.resolve d with
    | error fault => rfl
    | ok found =>
      obtain ⟨paths, notes⟩ := found
      rw [hresolve] at hspares
      obtain ⟨hpaths, hrest⟩ := List.forall_mem_append.1 hspares
      have hnoted := hr.feed hs notes
      simp only
      cases hnotes : r.feed s notes with
      | mk s' goesOn =>
        rw [hnotes] at hnoted
        cases goesOn with
        | false => rfl
        | true =>
          obtain ⟨events, hevents, -⟩ := exists_handsOver_roots o r s' paths
          have hafter := hevents.alike hr hnoted
          simp only [roots_frozen hd hr hpaths hnoted]
          cases hroots : roots o r paths s' with
          | mk s'' goesOn =>
            rw [hroots] at hafter
            cases goesOn with
            | false => rfl
            | true => exact ih hrest hafter

/-- **Writing a file that is spared** changes nothing about a walk. -/
theorem many_frozen {args : List RootArgument}
    (hspares : ∀ path ∈ (RootArgument.resolveAll d args).1, Spares o d l path)
    (hs : d.AlikeBut l (r.disk s)) : many o (r.frozen d) args s = many o r args s := by
  cases hout : o.output with
  | files =>
    simp only [many, hout]
    exact arguments_frozen hd hr hspares hs
  | directories =>
    have hs' : d.AlikeBut l (r.distinct.disk (s, [])) := hs
    simp only [many, hout, Receiver.distinct_frozen]
    rw [arguments_frozen hd hr.distinct hspares hs']

end Walk

end TreeSieve
