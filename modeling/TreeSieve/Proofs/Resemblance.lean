import TreeSieve.Proofs.Context
import TreeSieve.Proofs.NameOrder

/-!
# File systems with the same places

Two file systems resemble each other if at every place both have a node of the same kind. The
contents of their files can be different, and so can the order in which the entries of a directory
are enumerated. A walk does not see the difference, as long as it does not read: paths lead to the
same places (`Disk.Resembles.find`), and directories are listed alike (`Disk.Resembles.scan`).
-/

namespace TreeSieve

/-- The kind of a node, without what a file or a directory holds. -/
inductive Node.Kind where
  | file
  | link (target : Text)
  | device (kind : Device)
  | directory
  deriving DecidableEq

/-- The kind of a node. -/
def Node.kind : Node → Node.Kind
  | .file _ => .file
  | .link target => .link target
  | .device kind => .device kind
  | .directory _ => .directory

namespace Node

theorem eq_directory_of_kind {node : Node} (h : node.kind = .directory) :
    ∃ entries, node = .directory entries := by
  cases node with
  | directory entries => exact ⟨entries, rfl⟩
  | file _ | link _ | device _ => cases h

theorem eq_link_of_kind {node : Node} {target : Text} (h : node.kind = .link target) :
    node = .link target := by
  cases node with
  | link target =>
    cases h
    rfl
  | file _ | device _ | directory _ => cases h

end Node

namespace Disk

/-! ## Listings -/

/-- A child of a directory as it is listed. -/
def entryOf (d : Disk) (directory shownAs : Text) (follow : Bool) (child : Text × Node) : Entry :=
  { name := child.1
    path := Path.join shownAs child.1
    isDirectory := d.entryIsDirectory directory follow child
    isHidden := Path.isHiddenName child.1 }

theorem scan_eq (d : Disk) (directory shownAs : Text) (follow : Bool) :
    d.scan directory shownAs follow = (d.entries directory).map fun entries =>
      sortedByName (·.name) (entries.map (d.entryOf directory shownAs follow)) := by
  rw [scan]
  cases d.entries directory with
  | error fault => rfl
  | ok entries =>
    apply congrArg Except.ok
    exact List.map_mergeSort (fun a _ b _ => rfl)

theorem entries_of_get? {d : Disk} {directory : Text} {l : Location}
    {entries : List (Text × Node)} (hl : d.locate directory = .ok l)
    (hget : d.root.get? l = some (.directory entries)) :
    d.entries directory = if l ∈ d.unreadable then .error .denied else .ok entries := by
  rw [entries_eq, hl]
  simp only [hget]

theorem entries_of_not_directory {d : Disk} {directory : Text} {l : Location}
    (hl : d.locate directory = .ok l)
    (hget : ∀ entries, d.root.get? l ≠ some (.directory entries)) :
    d.entries directory = .error .notDirectory := by
  rw [entries_eq, hl]
  cases hnode : d.root.get? l with
  | none => simp only [hnode]
  | some node =>
    cases node with
    | directory entries => exact absurd hnode (hget entries)
    | file _ | link _ | device _ => simp only [hnode]

theorem nodup_of_entries {d : Disk} (hd : d.WellFormed) {directory : Text}
    {entries : List (Text × Node)} (h : d.entries directory = .ok entries) :
    (entries.map (·.1)).Nodup := by
  obtain ⟨l, -, hget⟩ := entries_eq_ok h
  exact (hd.entries hget).1

theorem nodup_names_entryOf {d : Disk} (hd : d.WellFormed) {directory : Text}
    {entries : List (Text × Node)} (h : d.entries directory = .ok entries) (shownAs : Text)
    (follow : Bool) :
    ((entries.map (d.entryOf directory shownAs follow)).map (·.name)).Nodup := by
  rw [List.map_map]
  exact nodup_of_entries hd h

/-! ## Resemblance -/

/-- At every place of one file system there is a node of the same kind in the other. -/
structure Resembles (d d' : Disk) : Prop where
  workingDirectory : d'.workingDirectory = d.workingDirectory
  unreadable : d'.unreadable = d.unreadable
  kind : ∀ l, (d'.root.get? l).map Node.kind = (d.root.get? l).map Node.kind

namespace Resembles

theorem refl (d : Disk) : d.Resembles d := ⟨rfl, rfl, fun _ => rfl⟩

theorem symm {d d' : Disk} (h : d.Resembles d') : d'.Resembles d :=
  ⟨h.workingDirectory.symm, h.unreadable.symm, fun l => (h.kind l).symm⟩

theorem trans {d d' d'' : Disk} (h : d.Resembles d') (h' : d'.Resembles d'') : d.Resembles d'' :=
  ⟨h'.workingDirectory.trans h.workingDirectory, h'.unreadable.trans h.unreadable,
    fun l => (h'.kind l).trans (h.kind l)⟩

variable {d d' : Disk} (h : d.Resembles d')

include h

/-- The entries of a directory have the same names and kinds. -/
theorem directory {l : Location} {entries : List (Text × Node)}
    (hl : d.root.get? l = some (.directory entries)) :
    ∃ entries', d'.root.get? l = some (.directory entries') ∧
      ∀ name, (entries'.lookup name).map Node.kind = (entries.lookup name).map Node.kind := by
  have hkind := h.kind l
  rw [hl] at hkind
  obtain ⟨node, hnode, hk⟩ := Option.map_eq_some_iff.1 hkind
  obtain ⟨entries', rfl⟩ := Node.eq_directory_of_kind hk
  refine ⟨entries', hnode, fun name => ?_⟩
  have hname := h.kind (l ++ [name])
  rw [Node.get?_append, Node.get?_append, hl, hnode] at hname
  simpa [Node.get?_directory_cons] using hname

theorem lookup_none {l : Location} {entries : List (Text × Node)} {name : Text}
    (hl : d.root.get? l = some (.directory entries)) (hlook : entries.lookup name = none) :
    ∃ entries', d'.root.get? l = some (.directory entries') ∧ entries'.lookup name = none := by
  obtain ⟨entries', hl', hkinds⟩ := h.directory hl
  have hkind := hkinds name
  rw [hlook] at hkind
  exact ⟨entries', hl', Option.map_eq_none_iff.1 hkind⟩

theorem lookup_node {l : Location} {entries : List (Text × Node)} {name : Text} {node : Node}
    (hl : d.root.get? l = some (.directory entries)) (hlook : entries.lookup name = some node) :
    ∃ entries' node', d'.root.get? l = some (.directory entries') ∧
      entries'.lookup name = some node' ∧ node'.kind = node.kind := by
  obtain ⟨entries', hl', hkinds⟩ := h.directory hl
  have hkind := hkinds name
  rw [hlook] at hkind
  obtain ⟨node', hlook', hk⟩ := Option.map_eq_some_iff.1 hkind
  exact ⟨entries', node', hl', hlook', hk⟩

theorem lookup_link {l : Location} {entries : List (Text × Node)} {name target : Text}
    (hl : d.root.get? l = some (.directory entries))
    (hlook : entries.lookup name = some (.link target)) :
    ∃ entries', d'.root.get? l = some (.directory entries') ∧
      entries'.lookup name = some (.link target) := by
  obtain ⟨entries', node', hl', hlook', hk⟩ := h.lookup_node hl hlook
  rw [Node.eq_link_of_kind hk] at hlook'
  exact ⟨entries', hl', hlook'⟩

/-- A place is no directory in the one if it is none in the other. -/
theorem not_directory {l : Location} (hl : ∀ entries, d.root.get? l ≠ some (.directory entries)) :
    ∀ entries, d'.root.get? l ≠ some (.directory entries) := by
  intro entries' hl'
  obtain ⟨entries, hentries, -⟩ := h.symm.directory hl'
  exact hl entries hentries

/-! ## Paths -/

theorem follow (sought : Sought) (links : Nat) (l : Location) (steps : List Text) :
    d'.follow sought links l steps = d.follow sought links l steps := by
  -- In every case of the recursion the other file system has something of the same kind at hand.
  fun_induction d.follow sought links l steps
  case case1 => exact Disk.follow_nil ..
  case case2 hl ih | case3 hl _ ih =>
    obtain ⟨entries', hl', -⟩ := h.directory hl
    rw [Disk.follow, hl']
    simpa using ih
  case case4 hl hhere habove _ hlook hend | case5 hl hhere habove _ hlook hend =>
    obtain ⟨entries', hl', hlook'⟩ := h.lookup_link hl hlook
    rw [Disk.follow, hl']
    simp [hhere, habove, hlook', hend]
  case case6 hl hhere habove _ hlook hend _ ih =>
    obtain ⟨entries', hl', hlook'⟩ := h.lookup_link hl hlook
    rw [Disk.follow, hl']
    simpa [hhere, habove, hlook', hend] using ih
  case case7 hl hhere habove node hnode hlook ih =>
    obtain ⟨entries', node', hl', hlook', hnode'⟩ := h.lookup_node hl hlook
    rw [Disk.follow, hl']
    cases node' with
    | link target => exact absurd (Node.eq_link_of_kind hnode'.symm) (hnode target)
    | file _ | device _ | directory _ => simpa [hhere, habove, hlook'] using ih
  case case8 hl hhere habove hlook hlong =>
    obtain ⟨entries', hl', hlook'⟩ := h.lookup_none hl hlook
    rw [Disk.follow, hl']
    simp [hhere, habove, hlook', hlong]
  case case9 hl hhere habove hlook hlong hend | case10 hl hhere habove hlook hlong hend =>
    obtain ⟨entries', hl', hlook'⟩ := h.lookup_none hl hlook
    rw [Disk.follow, hl']
    simp [hhere, habove, hlook', hlong, hend]
  case case11 hl =>
    have hl' := h.not_directory hl
    rw [Disk.follow]
    split
    · exact absurd ‹_› (hl' _)
    · rfl

theorem find (sought : Sought) (path : Text) : d'.find sought path = d.find sought path := by
  rw [Disk.find, Disk.find, h.workingDirectory, h.follow]

theorem locate (path : Text) : d'.locate path = d.locate path := h.find .target path

theorem identity? (path : Text) : d'.identity? path = d.identity? path := by
  rw [Disk.identity?, Disk.identity?, h.locate]

theorem absolute (path : Text) : d'.absolute path = d.absolute path := by
  rw [Disk.absolute, Disk.absolute, Disk.workingPath, Disk.workingPath, h.workingDirectory]

theorem kind_node? (path : Text) :
    (d'.node? path).map Node.kind = (d.node? path).map Node.kind := by
  rw [Disk.node?, Disk.node?, h.locate]
  cases d.locate path with
  | ok l => exact h.kind l
  | error e => rfl

theorem has (path : Text) : d'.has path = d.has path := by
  have hkind := congrArg Option.isSome (h.kind_node? path)
  simpa [Disk.has] using hkind

theorem any_node? (f : Node.Kind → Bool) (path : Text) :
    (d'.node? path).any (f ·.kind) = (d.node? path).any (f ·.kind) := by
  have hkind := congrArg (Option.any f) (h.kind_node? path)
  rwa [Option.any_map, Option.any_map] at hkind

theorem isDirectory (path : Text) : d'.isDirectory path = d.isDirectory path := by
  have hkind : Node.isDirectory = fun node => node.kind == .directory := by
    funext node
    cases node <;> rfl
  rw [Disk.isDirectory, Disk.isDirectory, hkind]
  exact h.any_node? (· == .directory) path

theorem isFile (path : Text) : d'.isFile path = d.isFile path := by
  have hkind : Node.isFile = fun node => node.kind == .file := by
    funext node
    cases node <;> rfl
  rw [Disk.isFile, Disk.isFile, hkind]
  exact h.any_node? (· == .file) path

/-! ## Listings -/

theorem entryIsDirectory {directory : Text} {follow : Bool} {name : Text} {node node' : Node}
    (hk : node'.kind = node.kind) : d'.entryIsDirectory directory follow (name, node') =
      d.entryIsDirectory directory follow (name, node) := by
  cases node with
  | file _ | device _ | directory _ =>
    cases node' <;> cases hk; rfl
  | link target =>
    obtain rfl := Node.eq_link_of_kind hk
    simp only [Disk.entryIsDirectory, h.isDirectory]

/-- Either both directories are listed, with the same names and kinds, or none is. -/
theorem entries (directory : Text) :
    match d.entries directory with
    | .error fault => d'.entries directory = .error fault
    | .ok entries => ∃ entries', d'.entries directory = .ok entries' ∧
      ∀ name, (entries'.lookup name).map Node.kind = (entries.lookup name).map Node.kind := by
  cases hl : d.locate directory with
  | error fault =>
    rw [Disk.entries_eq, Disk.entries_eq, h.locate, hl]
  | ok l =>
    have hl' : d'.locate directory = .ok l := by rw [h.locate, hl]
    by_cases hdir : ∃ entries, d.root.get? l = some (.directory entries)
    · obtain ⟨entries, hget⟩ := hdir
      obtain ⟨entries', hget', hkinds⟩ := h.directory hget
      rw [entries_of_get? hl hget, entries_of_get? hl' hget', h.unreadable]
      by_cases hread : l ∈ d.unreadable
      · simp only [if_pos hread]
      · simp only [if_neg hread]
        exact ⟨entries', rfl, hkinds⟩
    · have hnone : ∀ entries, d.root.get? l ≠ some (.directory entries) := not_exists.1 hdir
      rw [entries_of_not_directory hl hnone, entries_of_not_directory hl' (h.not_directory hnone)]

theorem mem_entries {directory shownAs : Text} {follow : Bool}
    {entries entries' : List (Text × Node)} (hn : (entries.map (·.1)).Nodup)
    (hkinds : ∀ name, (entries'.lookup name).map Node.kind = (entries.lookup name).map Node.kind)
    {e : Entry} (he : e ∈ entries.map (d.entryOf directory shownAs follow)) :
    e ∈ entries'.map (d'.entryOf directory shownAs follow) := by
  obtain ⟨⟨name, node⟩, hchild, rfl⟩ := List.mem_map.1 he
  have hkind := hkinds name
  rw [Node.lookup_of_mem hn hchild] at hkind
  obtain ⟨node', hlook', hk⟩ := Option.map_eq_some_iff.1 hkind
  refine List.mem_map.2 ⟨(name, node'), Node.mem_of_lookup hlook', ?_⟩
  rw [entryOf, entryOf, h.entryIsDirectory hk]

/-- **Directories are listed alike.** -/
theorem scan (hd : d.WellFormed) (hd' : d'.WellFormed) (directory shownAs : Text) (follow : Bool) :
    d'.scan directory shownAs follow = d.scan directory shownAs follow := by
  have hentries := h.entries directory
  rw [scan_eq, scan_eq]
  cases he : d.entries directory with
  | error fault =>
    rw [he] at hentries
    rw [hentries]
    rfl
  | ok entries =>
    rw [he] at hentries
    obtain ⟨entries', he', hkinds⟩ := hentries
    have hn := nodup_names_entryOf hd he shownAs follow
    have hn' := nodup_names_entryOf hd' he' shownAs follow
    rw [he']
    apply congrArg Except.ok
    apply sortedByName_unique _ _ hn'
    apply (List.perm_ext_iff_of_nodup hn'.of_map hn.of_map).2
    intro e
    constructor
    · exact h.symm.mem_entries (nodup_of_entries hd' he') (fun name => (hkinds name).symm)
    · exact h.mem_entries (nodup_of_entries hd he) hkinds

/-! ## Walks -/

variable (o : Options)

theorem place_scan (hd : d.WellFormed) (hd' : d'.WellFormed) (p : Place) :
    p.scan o d' = p.scan o d :=
  h.scan hd hd' p.absolute p.path o.followLinks

theorem place_identity? (absolute : Text) :
    Place.identity? o d' absolute = Place.identity? o d absolute := by
  rw [Place.identity?, Place.identity?, h.identity?]

theorem subdirectory? (p : Place) (e : Entry) :
    p.subdirectory? o d' e = p.subdirectory? o d e := by
  simp only [Place.subdirectory?, Place.below?, h.place_identity?]

theorem context_root (path : Text) : Context.root o d' path = Context.root o d path := by
  rw [Context.root, Context.root, Place.root, Place.root, h.absolute, h.place_identity?]

end Resembles

end Disk

/-! ## Emptied trees -/

namespace Node

mutual

/-- The tree with all its files empty. -/
def emptied : Node → Node
  | .directory entries => .directory (emptiedEntries entries)
  | .file _ => .file []
  | node => node

/-- The entries of a directory with all files in and below them empty. -/
def emptiedEntries : List (Text × Node) → List (Text × Node)
  | [] => []
  | (name, node) :: rest => (name, node.emptied) :: emptiedEntries rest

end

theorem kind_emptied (node : Node) : node.emptied.kind = node.kind := by
  cases node <;> simp only [emptied] <;> rfl

theorem lookup_emptiedEntries (entries : List (Text × Node)) (name : Text) :
    (emptiedEntries entries).lookup name = (entries.lookup name).map emptied := by
  induction entries with
  | nil => simp [emptiedEntries]
  | cons e rest ih =>
    obtain ⟨n, node⟩ := e
    rw [emptiedEntries, List.lookup_cons, List.lookup_cons, ih]
    cases name == n <;> rfl

theorem get?_emptied (node : Node) (l : Location) :
    node.emptied.get? l = (node.get? l).map emptied := by
  induction l generalizing node with
  | nil => simp
  | cons name l ih =>
    cases node with
    | directory entries =>
      rw [emptied, get?_directory_cons, get?_directory_cons, lookup_emptiedEntries]
      cases entries.lookup name with
      | none => rfl
      | some child => exact ih child
    | file _ | link _ | device _ => rfl

theorem map_fst_emptiedEntries (entries : List (Text × Node)) :
    (emptiedEntries entries).map (·.1) = entries.map (·.1) := by
  induction entries with
  | nil => simp [emptiedEntries]
  | cons e rest ih =>
    rw [emptiedEntries, List.map_cons, List.map_cons, ih]

mutual

theorem isWellFormed_emptied : (node : Node) → node.emptied.isWellFormed = node.isWellFormed
  | .directory entries => by
    rw [emptied, isWellFormed, isWellFormed, entriesWellFormed_emptied entries]
  | .file _ | .link _ | .device _ => by
    rfl

theorem entriesWellFormed_emptied : (entries : List (Text × Node)) →
    entriesWellFormed (emptiedEntries entries) = entriesWellFormed entries
  | [] => by
    rw [emptiedEntries]
  | (name, node) :: rest => by
    rw [emptiedEntries, entriesWellFormed, entriesWellFormed, isWellFormed_emptied node,
      entriesWellFormed_emptied rest, map_fst_emptiedEntries]

end

end Node

namespace Disk

/-- The file system with all its files empty. -/
def emptied (d : Disk) : Disk := { d with root := d.root.emptied }

theorem resembles_emptied (d : Disk) : d.Resembles d.emptied := by
  refine ⟨rfl, rfl, fun l => ?_⟩
  have hget : d.emptied.root.get? l = (d.root.get? l).map Node.emptied := Node.get?_emptied d.root l
  rw [hget, Option.map_map]
  exact congrArg (Option.map · _) (funext Node.kind_emptied)

theorem WellFormed.emptied {d : Disk} (hd : d.WellFormed) : d.emptied.WellFormed := by
  rw [WellFormed, Disk.emptied, Node.isWellFormed_emptied]
  exact hd

end Disk

end TreeSieve
