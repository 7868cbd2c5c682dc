import TreeSieve.Proofs.Finding
import TreeSieve.Proofs.Resemblance

/-!
# Trees at a place of a file system

A tree without links can stand anywhere in a file system. What a walk finds in a directory of the
tree depends on the tree, on the way to the directory inside of it and on what cannot be read, and
the place only gives the paths their beginning. This holds of the listing (`Place.At.scan_eq`), of
the subdirectories that are gone on to (`Place.At.below?_eq`), of the rule file
(`Place.At.ownRules_eq`) and of the paths that rules are matched against
(`Place.At.candidate_eq`).
-/

namespace TreeSieve

open TreeSieve.Sym

/-! ## Trees without links -/

namespace Node

/-- Whether there are no links in a tree. -/
def isLinkFree (node : Node) : Bool := node.locations.all fun l => !(node.get? l).any isLink

theorem isLink_of_isLinkFree {node child : Node} (h : node.isLinkFree = true) {l : Location}
    (hl : node.get? l = some child) : child.isLink = false := by
  have hall := List.all_eq_true.1 h l (mem_locations hl)
  rw [hl] at hall
  simpa using hall

end Node

/-- A directory tree without links stands at a place of a file system to which a path leads, both as
it is given and in its absolute form. The absolute form is not `//`. -/
structure Disk.Holds (d : Disk) (root : Text) (l : Location) (tree : Node) : Prop where
  wellFormed : d.WellFormed
  given : d.locate root = .ok l
  absolute : d.locate (d.absolute root) = .ok l
  front : d.absolute root ≠ [slash, slash]
  stands : d.root.get? l = some tree
  directory : tree.isDirectory = true
  linkFree : tree.isLinkFree = true

/-- The walk of a path goes over a directory tree without links. The tree stands where the absolute
form of the path leads, which is what is listed. -/
structure Disk.Lists (d : Disk) (root : Text) (l : Location) (tree : Node) : Prop where
  wellFormed : d.WellFormed
  isDirectory : d.isDirectory root = true
  absolute : d.locate (d.absolute root) = .ok l
  stands : d.root.get? l = some tree
  directory : tree.isDirectory = true
  linkFree : tree.isLinkFree = true

theorem Disk.Holds.isDirectory {d : Disk} {root : Text} {l : Location} {tree : Node}
    (h : d.Holds root l tree) : d.isDirectory root = true := by
  rw [Disk.isDirectory, Disk.node?, h.given]
  simp [h.stands, h.directory]

theorem Disk.Holds.lists {d : Disk} {root : Text} {l : Location} {tree : Node}
    (h : d.Holds root l tree) : d.Lists root l tree :=
  ⟨h.wellFormed, h.isDirectory, h.absolute, h.stands, h.directory, h.linkFree⟩

/-! ## Names that no entry has -/

namespace Disk

theorem isAbsolute_of_not_mem {name : Text} (hslash : slash ∉ name) :
    Path.isAbsolute name = false := by
  cases name with
  | nil => rfl
  | cons c t =>
    have hc : c ≠ slash := fun h => hslash (h ▸ List.mem_cons_self)
    simpa [Path.isAbsolute] using hc

/-- A piece that is joined to a path is the last step, even if no entry can be named like it. -/
theorem steps_join_piece (p : Text) {name : Text} (hne : name ≠ []) (hslash : slash ∉ name) :
    steps (Path.join p name) = (Text.pieces slash p).filter (· ≠ []) ++ [name] := by
  have hself : (Text.pieces slash name).filter (· ≠ []) = [name] := by
    rw [Text.pieces_of_not_mem hslash]
    simp [hne]
  have hend : ∀ q : Text, (q ++ name).getLast? ≠ some slash := fun q h => by
    rw [List.getLast?_append_of_ne_nil _ hne] at h
    exact hslash (List.mem_of_getLast? h)
  rw [Path.join, isAbsolute_of_not_mem hslash, if_neg Bool.false_ne_true]
  split
  · next h =>
    rw [steps, if_neg (hend p)]
    rcases h with rfl | hlast
    · exact hself
    · obtain ⟨q, rfl⟩ := List.getLast?_eq_some_iff.1 hlast
      rw [List.append_assoc, List.singleton_append, Text.pieces_append_cons,
        Text.pieces_append_cons, List.filter_append, List.filter_append, hself]
      simp [Text.pieces]
  · have hsplit : p ++ slash :: name = (p ++ [slash]) ++ name := by simp
    rw [steps, if_neg (hsplit ▸ hend _), Text.pieces_append_cons, List.filter_append, hself]

variable {d : Disk} {p : Text} {l : Location}

theorem isFile_of_directory {entries : List (Text × Node)} (hl : d.locate p = .ok l)
    (hget : d.root.get? l = some (.directory entries)) : d.isFile p = false := by
  rw [isFile, node?, hl]
  simp [hget, Node.isFile]

/-- The directory above a directory. -/
theorem exists_directory_above {root : Node} {entries : List (Text × Node)}
    (hget : root.get? l = some (.directory entries)) :
    ∃ siblings, root.get? l.dropLast = some (.directory siblings) := by
  induction l using List.reverseRecOn with
  | nil => exact ⟨entries, hget⟩
  | append_singleton l name =>
    obtain ⟨siblings, -, hl, -⟩ := exists_lookup_of_get? hget
    exact ⟨siblings, by rwa [List.dropLast_concat]⟩

/-- Where steps lead that are taken behind those of a path. -/
theorem exists_locate_append (hl : d.locate p = .ok l) {u : Text} (hnul : nul ∉ u) {t : List Text}
    (hsteps : steps (p ++ u) = (Text.pieces slash p).filter (· ≠ []) ++ t) :
    ∃ links, d.locate (p ++ u) = d.follow .target links l t := by
  obtain ⟨hnulp, hne, hfollow⟩ := locate_eq_ok hl
  obtain ⟨left, hleft⟩ := follow_append d maxLinks (start p d.workingDirectory)
    ((Text.pieces slash p).filter (· ≠ []))
  have habs : Path.isAbsolute (p ++ u) = Path.isAbsolute p := by
    obtain ⟨c, q, rfl⟩ := List.exists_cons_of_ne_nil hne
    rfl
  refine ⟨left, ?_⟩
  rw [locate, find, if_neg (by simp [hnulp, hnul]), if_neg (by simp [hne]), start, habs, ← start,
    hsteps, hleft, follow_names hfollow]
  rfl

theorem isFile_join_nil {entries : List (Text × Node)} (hl : d.locate p = .ok l)
    (hget : d.root.get? l = some (.directory entries)) : d.isFile (Path.join p []) = false := by
  rw [Path.join, isAbsolute_of_not_mem List.not_mem_nil, if_neg Bool.false_ne_true]
  split
  · rw [List.append_nil]
    exact isFile_of_directory hl hget
  · have hsteps : steps (p ++ [slash]) = (Text.pieces slash p).filter (· ≠ []) ++ [Path.here] := by
      rw [steps, if_pos (by simp), Text.pieces_append_cons, List.filter_append]
      simp [Text.pieces]
    obtain ⟨links, hlocate⟩ := exists_locate_append hl (by decide) hsteps
    have hself : d.locate (p ++ [slash]) = .ok l := by
      rw [hlocate, follow, hget]
      simp
    exact isFile_of_directory hself hget

/-- Without an entry of its name, a name without slashes does not lead to a file. -/
theorem isFile_join_of_lookup {entries : List (Text × Node)} (hl : d.locate p = .ok l)
    (hget : d.root.get? l = some (.directory entries)) {name : Text} (hslash : slash ∉ name)
    (hlook : entries.lookup name = none) : d.isFile (Path.join p name) = false := by
  by_cases hnil : name = []
  · rw [hnil]
    exact isFile_join_nil hl hget
  have hsteps := steps_join_piece p hnil hslash
  rw [Path.join, isAbsolute_of_not_mem hslash, if_neg Bool.false_ne_true] at hsteps ⊢
  obtain ⟨u, hu, hmem⟩ : ∃ u, (if p = [] ∨ p.getLast? = some slash then p ++ name
      else p ++ slash :: name) = p ++ u ∧ (nul ∈ u ↔ nul ∈ name) := by
    split
    · exact ⟨name, rfl, Iff.rfl⟩
    · exact ⟨slash :: name, rfl, by simp⟩
  rw [hu] at hsteps ⊢
  by_cases hnul : nul ∈ name
  · rw [isFile, node?, locate, find, if_pos (List.mem_append_right p (hmem.2 hnul))]
    rfl
  have hnulu : nul ∉ u := fun h => hnul (hmem.1 h)
  obtain ⟨links, hlocate⟩ := exists_locate_append hl hnulu hsteps
  by_cases hhere : name = Path.here
  · have hself : d.locate (p ++ u) = .ok l := by
      rw [hlocate, hhere, follow, hget]
      simp
    exact isFile_of_directory hself hget
  by_cases habove : name = Path.above
  · obtain ⟨siblings, hdirectory⟩ := exists_directory_above hget
    have hup : d.locate (p ++ u) = .ok l.dropLast := by
      rw [hlocate, habove, follow, hget]
      simp
    exact isFile_of_directory hup hdirectory
  · rw [isFile, node?, hlocate, follow, hget]
    simp only [hhere, habove, hlook, ↓reduceIte]
    split
    · next h =>
      split at h <;> simp at h
    · rfl

end Disk

/-! ## A place in a tree -/

/-- An entry of a directory of a tree, as it is listed by a walk from a root. -/
def Place.entryAt (root : Text) (way : List Text) (child : Text × Node) : Entry :=
  { name := child.1
    path := Path.below root (way ++ [child.1])
    isDirectory := child.2.isDirectory
    isHidden := Path.isHiddenName child.1 }

/-- A walk from a root is at a directory of a tree, to which the way leads inside of the tree. -/
structure Place.At (d : Disk) (root : Text) (l : Location) (tree : Node) (way : List Text)
    (entries : List (Text × Node)) (p : Place) : Prop where
  path : p.path = Path.below root way
  absolute : p.absolute = Path.below (d.absolute root) way
  located : d.locate p.absolute = .ok (l ++ way)
  directory : tree.get? way = some (.directory entries)
  /-- Only this directory and those above it are active. -/
  active : ∀ k ∈ p.active, k.length ≤ (l ++ way).length

theorem Disk.Lists.exists_entries {d : Disk} {root : Text} {l : Location} {tree : Node}
    (h : d.Lists root l tree) : ∃ entries, tree = .directory entries := by
  have hdir := h.directory
  cases tree with
  | directory entries => exact ⟨entries, rfl⟩
  | file _ | link _ | device _ => cases hdir

/-- A walk begins at the tree itself. -/
theorem Place.at_root (o : Options) {d : Disk} {root : Text} {l : Location}
    {entries : List (Text × Node)} (h : d.Lists root l (.directory entries)) :
    (Place.root o d root).At d root l (.directory entries) [] entries := by
  refine ⟨rfl, rfl, by rw [List.append_nil]; exact h.absolute, by rw [Node.get?_nil], ?_⟩
  intro k hk
  rw [Place.root, Option.mem_toList, Place.identity?] at hk
  split at hk
  · rw [Disk.identity?, h.absolute] at hk
    rw [← Option.some.inj hk, List.append_nil]
  · cases hk

namespace Place.At

variable {o : Options} {d : Disk} {root : Text} {l : Location} {tree : Node} {way : List Text}
  {entries : List (Text × Node)} {p : Place}

section Lists

variable (hh : d.Lists root l tree) (h : At d root l tree way entries p)

include hh h

theorem get?_eq : d.root.get? (l ++ way) = some (.directory entries) := by
  rw [Node.get?_append, hh.stands]
  exact h.directory

theorem isName_way : ∀ name ∈ way, Path.IsName name := fun name hname =>
  hh.wellFormed.isName_of_get? (h.get?_eq hh) name (List.mem_append_right l hname)

theorem isName_child {child : Text × Node} (hchild : child ∈ entries) : Path.IsName child.1 :=
  (hh.wellFormed.entries (h.get?_eq hh)).2 child hchild

theorem get?_child {child : Text × Node} (hchild : child ∈ entries) :
    tree.get? (way ++ [child.1]) = some child.2 := by
  have hnodup := (hh.wellFormed.entries (h.get?_eq hh)).1
  rw [Node.get?_append, h.directory, Option.bind_some, Node.get?_directory_cons,
    Node.lookup_of_mem hnodup hchild, Option.bind_some, Node.get?_nil]

theorem isLink_child {child : Text × Node} (hchild : child ∈ entries) : child.2.isLink = false :=
  Node.isLink_of_isLinkFree hh.linkFree (h.get?_child hh hchild)

/-- An entry is found one name below. -/
theorem locate_child {child : Text × Node} (hchild : child ∈ entries) :
    d.locate (Path.join p.absolute child.1) = .ok (l ++ (way ++ [child.1])) := by
  have hnodup := (hh.wellFormed.entries (h.get?_eq hh)).1
  rw [Disk.locate_join (h.isName_child hh hchild) h.located (h.get?_eq hh)
    (Node.lookup_of_mem hnodup hchild) (h.isLink_child hh hchild), List.append_assoc]

/-- The listing is that of the tree, with paths that begin at the root. -/
theorem scan_eq : p.scan o d =
    if l ++ way ∈ d.unreadable then .error .denied
    else .ok ((sortedByName (·.1) entries).map (entryAt root way)) := by
  have hentries := Disk.entries_of_get? h.located (h.get?_eq hh)
  rw [Place.scan, Disk.scan, hentries]
  split
  · rfl
  · apply congrArg Except.ok
    refine List.map_congr_left fun child hchild => ?_
    have hmem : child ∈ entries := List.mem_mergeSort.1 hchild
    have hlink := h.isLink_child hh hmem
    rw [entryAt, Path.below_concat, ← h.path]
    obtain ⟨name, node⟩ := child
    cases node <;> first | rfl | cases hlink

/-- No entry is a loop, and only the limit on the depth is in the way of going on to it. -/
theorem below?_eq {child : Text × Node} (hchild : child ∈ entries) :
    ∃ q, q.depth = p.depth + 1 ∧
      (∀ below, child.2 = .directory below → At d root l tree (way ++ [child.1]) below q) ∧
      p.below? o d (entryAt root way child) =
        if o.depth.any (· < p.depth) then none else some q := by
  have hlocated := h.locate_child hh hchild
  have hid : ∀ k, identity? o d (Path.join p.absolute child.1) = some k →
      k = l ++ (way ++ [child.1]) := by
    intro k hk
    rw [identity?] at hk
    split at hk
    · rw [Disk.identity?, hlocated] at hk
      exact (Option.some.inj hk).symm
    · cases hk
  have hnoloop : (identity? o d (Path.join p.absolute child.1)).any p.active.contains = false := by
    cases hk : identity? o d (Path.join p.absolute child.1) with
    | none => rfl
    | some k =>
      rw [Option.any_some, List.contains_eq_mem, decide_eq_false_iff_not]
      intro hmem
      have hlen := h.active k hmem
      rw [hid k hk] at hlen
      simp only [List.length_append, List.length_singleton] at hlen
      omega
  refine ⟨{ path := Path.below root (way ++ [child.1])
            absolute := Path.join p.absolute child.1
            active := (identity? o d (Path.join p.absolute child.1)).toList ++ p.active
            depth := p.depth + 1 }, rfl, fun below hbelow => ?_, ?_⟩
  · refine ⟨rfl, ?_, hlocated, by rw [h.get?_child hh hchild, hbelow], ?_⟩
    · simp only [h.absolute, Path.below_concat]
    · intro k hk
      rcases List.mem_append.1 hk with hk | hk
      · rw [hid k (Option.mem_toList.1 hk)]
      · have hlen := h.active k hk
        simp only [List.length_append, List.length_singleton] at hlen ⊢
        omega
  · rw [below?]
    simp only [entryAt, hnoloop, Bool.false_eq_true, ↓reduceIte]

/-- The rule file is that of the tree. -/
theorem ownRules_eq (hname : ∀ name, o.ruleFileName = some name → slash ∉ name)
    (isExcluded : Bool) : p.ownRules o d isExcluded =
      match o.ruleFileName with
      | none => .ok []
      | some name =>
        if isExcluded then .ok []
        else
          match entries.lookup name with
          | some (.file content) =>
            if l ++ (way ++ [name]) ∈ d.unreadable then
              .error (.unreadable (Path.below root (way ++ [name])) (.ofFault .denied))
            else .ok (RuleStack.declared p.absolute (RuleStack.fileLines content)).reverse
          | _ => .ok [] := by
  rw [ownRules]
  cases hrule : o.ruleFileName with
  | none => rfl
  | some name =>
    simp only
    split
    · rfl
    · cases hlook : entries.lookup name with
      | none =>
        rw [Disk.isFile_join_of_lookup h.located (h.get?_eq hh) (hname name hrule) hlook]
        rfl
      | some node =>
        have hmem := Node.mem_of_lookup hlook
        have hlocated := h.locate_child hh hmem
        have hget : d.root.get? (l ++ (way ++ [name])) = some node := by
          rw [Node.get?_append, hh.stands]
          exact h.get?_child hh hmem
        have hfile : d.isFile (Path.join p.absolute name) = node.isFile := by
          rw [Disk.isFile, Disk.node?, hlocated]
          simp [hget]
        rw [hfile]
        cases node with
        | file content =>
          rw [Disk.read_eq, hlocated]
          simp only [hget, Node.isFile, ↓reduceIte, Path.below_concat, ← h.path]
          by_cases hun : l ++ (way ++ [name]) ∈ d.unreadable
          · simp only [if_pos hun]
          · simp only [if_neg hun]
        | link _ | device _ | directory _ => rfl

end Lists

section Holds

variable (hh : d.Holds root l tree) (h : At d root l tree way entries p)

include hh h

/-- The place is written the same way behind every root. -/
theorem trimmed_eq : Path.trimmed p.absolute =
    Path.trimmed (d.absolute root) ++ way.flatMap (slash :: ·) := by
  rw [h.absolute, (d.isForm_absolute root).trimmed_below (h.isName_way hh.lists) hh.front]

/-- The path of an entry that rules are matched against, behind the root. -/
theorem candidate_eq (child : Text × Node) :
    p.candidate (entryAt root way child) = Path.trimmed (d.absolute root) ++
      ((way ++ [child.1]).flatMap (slash :: ·) ++ if child.2.isDirectory then [slash] else []) := by
  rw [candidate, h.trimmed_eq hh]
  simp only [entryAt, List.flatMap_append, List.append_assoc]
  split <;> simp

end Holds

end Place.At

end TreeSieve
