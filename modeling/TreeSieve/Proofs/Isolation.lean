import TreeSieve.Proofs.Delivery
import TreeSieve.Proofs.Placement

/-!
# What happens in a directory stays there

Two trees without links differ only inside one directory (`Node.AgreesOutside`). Walks of the two
come to the same directories outside of it, with the same rules and the same standing, so on the
side of the recursion they are in equal contexts there and find the same (`Context.enter_outside`,
`Context.subcontext?_outside`). What they find inside is all below the directory
(`Context.not_isOutside_walk`), and nothing of it comes along when they go on. So both show the same
outside, in the same order (`Walker.walk_outside`).
-/

namespace TreeSieve

open TreeSieve.Sym

/-! ## Trees that differ inside of one directory -/

theorem eq_of_prefix_concat {top way : Location} {name : Text} (hway : ¬top <+: way)
    (h : top <+: way ++ [name]) : top = way ++ [name] := by
  rcases List.prefix_concat_iff.1 h with heq | hpre
  · exact heq
  · exact absurd hpre hway

namespace Node

/-- A node without what a directory holds. -/
def bare : Node → Node
  | .directory _ => .directory []
  | node => node

theorem bare_eq_file_iff {node : Node} {content : List UInt8} :
    node.bare = .file content ↔ node = .file content := by
  cases node <;> simp [bare]

theorem isDirectory_bare (node : Node) : node.bare.isDirectory = node.isDirectory := by
  cases node <;> rfl

theorem bare_of_isDirectory {node : Node} (h : node.isDirectory = true) :
    node.bare = .directory [] := by
  cases node with
  | directory _ => rfl
  | file _ | link _ | device _ => cases h

/-- Two trees that differ only inside the directory at a location, which is there in both. -/
structure AgreesOutside (top : Location) (tree tree' : Node) : Prop where
  directory : (tree.get? top).any isDirectory = true
  directory' : (tree'.get? top).any isDirectory = true
  same : ∀ l, ¬top <+: l → (tree'.get? l).map bare = (tree.get? l).map bare

namespace AgreesOutside

variable {top : Location} {tree tree' : Node} (h : AgreesOutside top tree tree')

include h

/-- One step further than outside there are still the same kinds of nodes. -/
theorem same_concat {way : Location} (hway : ¬top <+: way) (name : Text) :
    (tree'.get? (way ++ [name])).map bare = (tree.get? (way ++ [name])).map bare := by
  by_cases hout : top <+: way ++ [name]
  · obtain rfl := eq_of_prefix_concat hway hout
    obtain ⟨node, hnode, hdir⟩ := (Option.any_eq_true _ _).1 h.directory
    obtain ⟨node', hnode', hdir'⟩ := (Option.any_eq_true _ _).1 h.directory'
    rw [hnode, hnode', Option.map_some, Option.map_some, bare_of_isDirectory hdir,
      bare_of_isDirectory hdir']
  · exact h.same _ hout

/-- The entries of a directory outside have the same names, and the same files are among them. -/
theorem lookup {way : Location} (hway : ¬top <+: way) {entries entries' : List (Text × Node)}
    (hget : tree.get? way = some (.directory entries))
    (hget' : tree'.get? way = some (.directory entries')) (name : Text) :
    (entries'.lookup name).map bare = (entries.lookup name).map bare := by
  have hname := h.same_concat hway name
  rw [get?_append, get?_append, hget, hget'] at hname
  simpa [get?_directory_cons] using hname

end AgreesOutside

/-- Trees in which one entry of the topmost directory is another directory. -/
theorem AgreesOutside.of_entry (before after : List (Text × Node)) {name : Text}
    (hname : before.lookup name = none) (entries entries' : List (Text × Node)) :
    AgreesOutside [name] (.directory (before ++ (name, .directory entries) :: after))
      (.directory (before ++ (name, .directory entries') :: after)) := by
  refine ⟨?_, ?_, fun l hl => ?_⟩
  · simp [get?_directory_cons, lookup_middle hname, isDirectory]
  · simp [get?_directory_cons, lookup_middle hname, isDirectory]
  · cases l with
    | nil => rfl
    | cons n rest =>
      have hne : n ≠ name := by
        rintro rfl
        exact hl ⟨rest, rfl⟩
      rw [get?_directory_cons, get?_directory_cons, lookup_middle hname, lookup_middle hname,
        if_neg hne, if_neg hne]

end Node

/-! ## Events outside of a directory -/

namespace Event

/-- The path that an event is about. -/
def path? : Event → Option Text
  | .result r => some r.path
  | .error e => some e.path
  | .raised e => some e.path
  | .note _ => none
  | .refused _ => none

/-- Whether an event is about something outside of a directory, that is, neither about the directory
itself nor about something below it. -/
def isOutside (top : Text) (e : Event) : Bool :=
  !e.path?.any fun path => (Path.names top).isPrefixOf (Path.names path)

theorem isOutside_eq_false {top path : Text} {e : Event} (he : e.path? = some path)
    (h : Path.names top <+: Path.names path) : e.isOutside top = false := by
  rw [isOutside, he, Option.any_some, List.isPrefixOf_iff_prefix.2 h]
  rfl

end Event

/-! ## Walks of trees that differ -/

theorem Place.entryAt_eq (root : Text) (way : List Text) {entries entries' : List (Text × Node)}
    (hn : (entries.map (·.1)).Nodup) (hn' : (entries'.map (·.1)).Nodup)
    (hsame : ∀ name, (entries'.lookup name).map Node.bare = (entries.lookup name).map Node.bare) :
    (sortedByName (·.1) entries').map (entryAt root way) =
      (sortedByName (·.1) entries).map (entryAt root way) := by
  have hsorted : ∀ es : List (Text × Node), (sortedByName (·.1) es).map (entryAt root way) =
      sortedByName (·.name) (es.map (entryAt root way)) :=
    fun es => List.map_mergeSort fun _ _ _ _ => rfl
  have hsub : ∀ {es es' : List (Text × Node)}, (es.map (·.1)).Nodup →
      (∀ name, (es'.lookup name).map Node.bare = (es.lookup name).map Node.bare) →
      ∀ e ∈ es.map (entryAt root way), e ∈ es'.map (entryAt root way) := by
    intro es es' hes hlook e he
    obtain ⟨⟨name, node⟩, hchild, rfl⟩ := List.mem_map.1 he
    have hbare := hlook name
    rw [Node.lookup_of_mem hes hchild] at hbare
    obtain ⟨node', hlook', hnode⟩ := Option.map_eq_some_iff.1 hbare
    refine List.mem_map.2 ⟨(name, node'), Node.mem_of_lookup hlook', ?_⟩
    rw [entryAt, entryAt]
    simp only [← Node.isDirectory_bare node', hnode, Node.isDirectory_bare]
  have hnames : ∀ {es : List (Text × Node)}, (es.map (·.1)).Nodup →
      ((es.map (entryAt root way)).map (·.name)).Nodup := by
    intro es hes
    rw [List.map_map]
    exact hes
  rw [hsorted, hsorted]
  apply sortedByName_unique _ _ (hnames hn')
  apply (List.perm_ext_iff_of_nodup (hnames hn').of_map (hnames hn).of_map).2
  exact fun e => ⟨hsub hn' (fun name => (hsame name).symm) e, hsub hn hsame e⟩

theorem Place.subdirectory?_congr {o : Options} {d d' : Disk} {p : Place} {e : Entry}
    (h : identity? o d' (Path.join p.absolute e.name) =
      identity? o d (Path.join p.absolute e.name)) :
    p.subdirectory? o d' e = p.subdirectory? o d e := by
  simp only [subdirectory?, below?, h]

/-- The paths of a tree are written with names. -/
theorem Disk.Lists.isName {d : Disk} {root : Text} {l : Location} {tree : Node}
    (h : d.Lists root l tree) {way : Location}
    (hway : (tree.get? way).any Node.isDirectory = true) :
    ∀ name ∈ way, Path.IsName name := by
  obtain ⟨node, hnode, -⟩ := (Option.any_eq_true _ _).1 hway
  have hget : d.root.get? (l ++ way) = some node := by
    rw [Node.get?_append, h.stands, Option.bind_some, hnode]
  exact fun name hname => h.wellFormed.isName_of_get? hget name (List.mem_append_right l hname)

/-- Where the walk of one tree goes on from a directory outside, the walk of the other goes on
too. -/
theorem Place.At.outside {d d' : Disk} {root : Text} {l : Location} {tree tree' : Node}
    {top way : Location} {entries' below : List (Text × Node)} {name : Text} {p q : Place}
    (hh' : d'.Lists root l tree') (hroot : d'.absolute root = d.absolute root)
    (hagree : tree.AgreesOutside top tree') (hway : ¬top <+: way)
    (h : q.At d root l tree (way ++ [name]) below) (h' : p.At d' root l tree' way entries') :
    ∃ below', q.At d' root l tree' (way ++ [name]) below' := by
  have hbare := hagree.same_concat hway name
  rw [h.directory] at hbare
  obtain ⟨node', hnode', hdir⟩ := Option.map_eq_some_iff.1 hbare
  cases node' with
  | directory below' =>
    have hlook : entries'.lookup name = some (.directory below') := by
      rw [Node.get?_append, h'.directory] at hnode'
      simpa [Node.get?_directory_cons] using hnode'
    have habsolute : q.absolute = Path.below (d'.absolute root) (way ++ [name]) := by
      rw [h.absolute, hroot]
    refine ⟨below', h.path, habsolute, ?_, hnode', h.active⟩
    rw [habsolute, Path.below_concat, ← h'.absolute]
    exact h'.locate_child hh' (Node.mem_of_lookup hlook)
  | file _ | link _ | device _ => cases hdir

namespace Context

variable {o : Options} {into : Standing → Bool} {d d' : Disk} {root : Text} {l : Location}
  {tree tree' : Node} {top way : Location} {entries entries' : List (Text × Node)} {s : Context}
  (hname : ∀ name, o.ruleFileName = some name → slash ∉ name)

/-! ### Inside -/

section Inside

variable (hh : d.Lists root l tree)

include hh

/-- The directory of a context that is gone on to. -/
theorem exists_at_of_mem_subcontexts (h : s.place.At d root l tree way entries)
    {rules : List Rule} {s' : Context}
    (hs' : s' ∈ ((sortedByName (·.1) entries).map (Place.entryAt root way)).filterMap
      (s.subcontext? o d into rules)) :
    ∃ name below, s'.place.At d root l tree (way ++ [name]) below := by
  obtain ⟨e, he, hplace⟩ := mem_subcontexts hs'
  obtain ⟨child, hchild, rfl⟩ := List.mem_map.1 he
  obtain ⟨hdir, hbelow⟩ := Place.subdirectory?_eq_some hplace
  obtain ⟨below, hnode⟩ : ∃ below, child.2 = .directory below := by
    cases hnode : child.2 with
    | directory below => exact ⟨below, rfl⟩
    | file _ | link _ | device _ => simp [Place.entryAt, hnode, Node.isDirectory] at hdir
  obtain ⟨q, -, hat, hq⟩ := h.below?_eq (o := o) hh (List.mem_mergeSort.1 hchild)
  rw [hq] at hbelow
  split at hbelow
  · cases hbelow
  · obtain rfl := Option.some.inj hbelow
    exact ⟨child.1, below, hat below hnode⟩

include hname

/-- A directory of a tree is listed, or it fails, and then the error is about it or an entry. -/
theorem enter_at (h : s.place.At d root l tree way entries) :
    (∃ more cause, (∀ n ∈ way ++ more, Path.IsName n) ∧
      s.enter o d = .error (.unreadable (Path.below root (way ++ more)) cause)) ∨
    ∃ rules, s.enter o d =
      .ok (rules, (sortedByName (·.1) entries).map (Place.entryAt root way)) := by
  have hway := h.isName_way hh
  have hown : (∃ name fault, Path.IsName name ∧
      s.ownRules o d = .error (.unreadable (Path.below root (way ++ [name])) (.ofFault fault))) ∨
      ∃ own, s.ownRules o d = .ok own := by
    rw [ownRules, h.ownRules_eq hh hname]
    cases o.ruleFileName with
    | none => exact Or.inr ⟨[], rfl⟩
    | some name =>
      simp only
      split
      · exact Or.inr ⟨[], rfl⟩
      · split
        · next content hlook =>
          split
          · exact Or.inl ⟨name, .denied, h.isName_child hh (Node.mem_of_lookup hlook), rfl⟩
          · exact Or.inr ⟨_, rfl⟩
        · exact Or.inr ⟨[], rfl⟩
  rw [enter]
  rcases hown with ⟨name, fault, hrule, herror⟩ | ⟨own, hok⟩
  · rw [herror]
    refine Or.inl ⟨[name], .ofFault fault, fun n hn => ?_, rfl⟩
    rcases List.mem_append.1 hn with hn | hn
    · exact hway n hn
    · exact List.mem_singleton.1 hn ▸ hrule
  · rw [hok, h.scan_eq hh]
    simp only
    by_cases hun : l ++ way ∈ d.unreadable
    · rw [if_pos hun]
      refine Or.inl ⟨[], .ofFault .denied, by simpa using hway, ?_⟩
      rw [List.append_nil, ← h.path]
    · rw [if_neg hun]
      exact Or.inr ⟨own ++ s.rules, rfl⟩

/-- What the walk of a directory shows is about what lies below. -/
theorem not_isOutside_walk (htop : ∀ n ∈ top, Path.IsName n) (levels : Nat)
    (h : s.place.At d root l tree way entries) (hway : top <+: way) :
    ∀ e ∈ s.walk o d into levels, e.isOutside (Path.below root top) = false := by
  induction levels generalizing s way entries with
  | zero =>
    intro e he
    cases he
  | succ levels ih =>
    have hinside : ∀ more path (e : Event), (∀ n ∈ way ++ more, Path.IsName n) →
        e.path? = some path → Path.names path = Path.names (Path.below root (way ++ more)) →
        e.isOutside (Path.below root top) = false := by
      intro more path e hnames hpath heq
      refine Event.isOutside_eq_false hpath ?_
      rw [heq, Path.names_below htop, Path.names_below hnames]
      exact (List.prefix_append_right_inj _).2 (hway.trans (List.prefix_append _ _))
    intro e he
    rw [walk] at he
    rcases enter_at hname hh h with ⟨more, cause, hnames, henter⟩ | ⟨rules, henter⟩
    · rw [henter] at he
      obtain rfl := List.mem_singleton.1 he
      rw [Options.failure]
      cases o.onError <;> exact hinside more _ _ hnames rfl rfl
    · rw [henter] at he
      rcases List.mem_append.1 he with hown | hbelow
      · obtain ⟨f, hf, rfl⟩ := List.mem_map.1 hown
        obtain ⟨child, hchild, rfl⟩ := List.mem_map.1 (List.mem_of_mem_filter hf)
        refine hinside [child.1] _ _ (fun n hn => ?_) rfl (Path.names_plain _)
        rcases List.mem_append.1 hn with hn | hn
        · exact h.isName_way hh n hn
        · exact List.mem_singleton.1 hn ▸ h.isName_child hh (List.mem_mergeSort.1 hchild)
      · obtain ⟨s', hs', he⟩ := List.mem_flatMap.1 hbelow
        obtain ⟨name, below, hat⟩ := exists_at_of_mem_subcontexts hh h hs'
        exact ih hat (hway.trans (List.prefix_append _ _)) e he

end Inside

/-! ### Outside -/

section Outside

variable (hh : d.Lists root l tree) (hh' : d'.Lists root l tree')
  (hagree : tree.AgreesOutside top tree')
  (hunreadable : ∀ m, ¬top <+: m → (l ++ m ∈ d'.unreadable ↔ l ++ m ∈ d.unreadable))
  (h : s.place.At d root l tree way entries) (h' : s.place.At d' root l tree' way entries')
  (hway : ¬top <+: way)

include hh hh' hagree h h' hway

/-- The same entries are gone on to. -/
theorem subcontext?_outside (rules : List Rule) {e : Entry}
    (he : e ∈ (sortedByName (·.1) entries).map (Place.entryAt root way)) :
    s.subcontext? o d' into rules e = s.subcontext? o d into rules e := by
  obtain ⟨⟨name, node⟩, hchild, rfl⟩ := List.mem_map.1 he
  have hmem := List.mem_mergeSort.1 hchild
  have hn := (hh.wellFormed.entries (h.get?_eq hh)).1
  have hlookup := hagree.lookup hway h.directory h'.directory name
  rw [Node.lookup_of_mem hn hmem] at hlookup
  obtain ⟨node', hlook', -⟩ := Option.map_eq_some_iff.1 hlookup
  have hidentity : Place.identity? o d' (Path.join s.place.absolute name) =
      Place.identity? o d (Path.join s.place.absolute name) := by
    rw [Place.identity?, Place.identity?, Disk.identity?, Disk.identity?, h.locate_child hh hmem,
      h'.locate_child hh' (Node.mem_of_lookup hlook')]
  rw [subcontext?, subcontext?, Place.subdirectory?_congr hidentity]

include hname hunreadable

theorem enter_outside : s.enter o d' = s.enter o d := by
  have hlookup := hagree.lookup hway h.directory h'.directory
  have hown : s.ownRules o d' = s.ownRules o d := by
    rw [ownRules, ownRules, h.ownRules_eq hh hname, h'.ownRules_eq hh' hname]
    cases o.ruleFileName with
    | none => rfl
    | some name =>
      simp only
      split
      · rfl
      · have hbare := hlookup name
        cases hlook : entries.lookup name with
        | none =>
          rw [hlook] at hbare
          rw [Option.map_eq_none_iff.1 hbare]
        | some node =>
          rw [hlook] at hbare
          obtain ⟨node', hlook', hnode⟩ := Option.map_eq_some_iff.1 hbare
          rw [hlook']
          cases node with
          | file content =>
            obtain rfl := Node.bare_eq_file_iff.1 (hnode.trans (Node.bare_eq_file_iff.2 rfl))
            -- A file is not the directory in which the trees differ.
            have hout : ¬top <+: way ++ [name] := by
              intro hpre
              have hdir := hagree.directory
              rw [eq_of_prefix_concat hway hpre, h.get?_child hh (Node.mem_of_lookup hlook)] at hdir
              cases hdir
            simp only [hunreadable _ hout]
          | link _ | device _ | directory _ => cases node' <;> first | rfl | cases hnode
  have hscan : s.place.scan o d' = s.place.scan o d := by
    have hn := (hh.wellFormed.entries (h.get?_eq hh)).1
    have hn' := (hh'.wellFormed.entries (h'.get?_eq hh')).1
    rw [h.scan_eq hh, h'.scan_eq hh', Place.entryAt_eq root way hn hn' hlookup]
    by_cases hun : l ++ way ∈ d.unreadable
    · rw [if_pos hun, if_pos ((hunreadable way hway).2 hun)]
    · rw [if_neg hun, if_neg fun hun' => hun ((hunreadable way hway).1 hun')]
  rw [enter, enter, hown, hscan]

omit h h' hway in
variable (into) in
/-- **Walks show the same outside**, whatever is inside. -/
theorem filter_walk_outside (hroot : d'.absolute root = d.absolute root) (levels : Nat)
    (h : s.place.At d root l tree way entries) (h' : s.place.At d' root l tree' way entries') :
    (s.walk o d' into levels).filter (Event.isOutside (Path.below root top)) =
      (s.walk o d into levels).filter (Event.isOutside (Path.below root top)) := by
  have htop := hh.isName hagree.directory
  induction levels generalizing s way entries entries' with
  | zero => rfl
  | succ levels ih =>
    by_cases hway : top <+: way
    · have hnone : ∀ es : List Event, (∀ e ∈ es, e.isOutside (Path.below root top) = false) →
          es.filter (Event.isOutside (Path.below root top)) = [] :=
        fun es hes => List.filter_eq_nil_iff.2 fun e he => by simp [hes e he]
      rw [hnone _ (not_isOutside_walk hname hh htop (levels + 1) h hway),
        hnone _ (not_isOutside_walk hname hh' htop (levels + 1) h' hway)]
    · rw [walk, walk, enter_outside hname hh hh' hagree hunreadable h h' hway]
      rcases enter_at hname hh h with ⟨more, cause, -, henter⟩ | ⟨rules, henter⟩
      · rw [henter]
      · have hsub : ((sortedByName (·.1) entries).map (Place.entryAt root way)).filterMap
            (s.subcontext? o d' into rules) =
            ((sortedByName (·.1) entries).map (Place.entryAt root way)).filterMap
              (s.subcontext? o d into rules) :=
          List.filterMap_congr fun e he =>
            subcontext?_outside hh hh' hagree h h' hway rules he
        rw [henter]
        simp only [List.filter_append, List.filter_flatMap, hsub]
        congr 1
        apply List.flatMap_congr
        intro s' hs'
        obtain ⟨name, below, hat⟩ := exists_at_of_mem_subcontexts hh h hs'
        obtain ⟨below', hat'⟩ := hat.outside hh' hroot hagree hway h'
        exact ih hat hat'

end Outside

end Context

/-- **Isolation.** Two trees without links that differ only inside one directory, also in what
cannot be read there, are walked alike outside of it: the same files and the same errors are
reported in the same order. -/
theorem Walker.walk_outside {w : Walker} (hfiles : w.options.output = .files)
    (hreport : w.options.onError = .report)
    (hname : ∀ name, w.options.ruleFileName = some name → slash ∉ name) {d d' : Disk} {root : Text}
    {l : Location} {tree tree' : Node} {top : Location} (hh : d.Lists root l tree)
    (hh' : d'.Lists root l tree') (hroot : d'.absolute root = d.absolute root)
    (hagree : tree.AgreesOutside top tree')
    (hunreadable : ∀ m, ¬top <+: m → (l ++ m ∈ d'.unreadable ↔ l ++ m ∈ d.unreadable)) :
    (w.walk d' root none).1.filter (Event.isOutside (Path.below root top)) =
      (w.walk d root none).1.filter (Event.isOutside (Path.below root top)) := by
  have hlevels : d.root.size < d.root.size + d'.root.size + 1 := by omega
  have hlevels' : d'.root.size < d.root.size + d'.root.size + 1 := by omega
  rw [walk_eq hreport hh.wellFormed hlevels, walk_eq hreport hh'.wellFormed hlevels',
    Walk.listing, Walk.listing, if_pos (Disk.has_of_isDirectory hh.isDirectory),
    if_pos hh.isDirectory, if_pos (Disk.has_of_isDirectory hh'.isDirectory),
    if_pos hh'.isDirectory, Context.tree, Context.tree, Options.listing, hfiles, Options.listing,
    hfiles]
  have hstart : Context.root w.options d' root = Context.root w.options d root := by
    rw [Context.root, Context.root, Place.root, Place.root, Place.identity?, Place.identity?,
      Disk.identity?, Disk.identity?, hh'.absolute, hh.absolute, hroot]
  obtain ⟨entries, rfl⟩ := hh.exists_entries
  obtain ⟨entries', rfl⟩ := hh'.exists_entries
  have hat' : (Context.root w.options d root).place.At d' root l (.directory entries') []
      entries' := by
    rw [← hstart]
    exact Place.at_root w.options hh'
  rw [hstart]
  exact Context.filter_walk_outside _ hname hh hh' hagree hunreadable hroot _
    (Place.at_root w.options hh) hat'

/-- A directory that cannot be listed, and in its place one with a rule file that excludes all files
but brings back those that the rules above exclude. -/
theorem Walker.walk_outside_rule_file :
    let tree (inside : List (Text × Node)) : Node := .directory [("a.o", .file []),
      ("r", .file (Utf8.encode "*.o")), ("x", .directory inside),
      ("y", .directory [("b", .file []), ("c.o", .file [])])]
    let d : Disk := ⟨tree [], [], [["x"]]⟩
    let d' : Disk := ⟨tree [("d", .file []), ("e.o", .file []),
      ("r", .file (Utf8.encode "*\n!*.o"))], [], []⟩
    let w : Walker := { options := { ruleFileName := some "r" } }
    (w.walk d' "/" none).1 = [.result ⟨"/x/e.o", false⟩, .result ⟨"/y/b", false⟩] ∧
      (w.walk d "/" none).1.filter (Event.isOutside "/x") = [.result ⟨"/y/b", false⟩] := by
  intro tree d d' w
  have hname : ∀ name, w.options.ruleFileName = some name → slash ∉ name := by
    intro name h
    obtain rfl := Option.some.inj h
    decide
  have hh : d.Lists "/" [] d.root := ⟨by decide, by cbv, by cbv, by cbv, rfl, by cbv⟩
  have hh' : d'.Lists "/" [] d'.root := ⟨by decide, by cbv, by cbv, by cbv, rfl, by cbv⟩
  have hagree : d.root.AgreesOutside ["x"] d'.root :=
    Node.AgreesOutside.of_entry [("a.o", .file []), ("r", .file (Utf8.encode "*.o"))]
      [("y", .directory [("b", .file []), ("c.o", .file [])])] rfl _ _
  have hwalk : (w.walk d' "/" none).1 =
      [.result ⟨"/x/e.o", false⟩, .result ⟨"/y/b", false⟩] := by cbv
  refine ⟨hwalk, ?_⟩
  have houtside := walk_outside (w := w) rfl rfl hname hh hh' rfl hagree fun m hm => by
    constructor
    · intro h
      cases h
    · intro h
      obtain rfl := List.mem_singleton.1 h
      exact absurd List.prefix_rfl hm
  rw [hwalk] at houtside
  exact houtside.symm.trans (by cbv)

end TreeSieve
