import TreeSieve.Proofs.BytePaths
import TreeSieve.Proofs.Overwriting

/-!
# File trees whose names are bytes

A file system keeps names as bytes, and so it does the targets of links (`Disk.HasByteNames`). A
file that is opened under a path gets its name from the path, or from the target of a link that the
path leads over. So opening a file adds no name that is not read from bytes
(`Disk.HasByteNames.isByteName_of_openFile`), and writing to one adds no name at all
(`Disk.names_append_subset`).
-/

namespace TreeSieve

open TreeSieve.Sym

namespace Node

/-! ## The names in a tree -/

mutual

/-- The names of all entries of a tree. -/
def names : Node → List Text
  | .directory entries => namesOfEntries entries
  | _ => []

/-- The names of entries and of all entries below them. -/
def namesOfEntries : List (Text × Node) → List Text
  | [] => []
  | (name, node) :: rest => name :: (node.names ++ namesOfEntries rest)

end

mutual

/-- The targets of all links of a tree. -/
def targets : Node → List Text
  | .directory entries => targetsOfEntries entries
  | .link target => [target]
  | _ => []

/-- The targets of the links at and below entries. -/
def targetsOfEntries : List (Text × Node) → List Text
  | [] => []
  | (_, node) :: rest => node.targets ++ targetsOfEntries rest

end

theorem mem_namesOfEntries {entries : List (Text × Node)} {name : Text} :
    name ∈ namesOfEntries entries ↔ ∃ e ∈ entries, name = e.1 ∨ name ∈ e.2.names := by
  induction entries with
  | nil => simp [namesOfEntries]
  | cons e rest ih =>
    obtain ⟨first, node⟩ := e
    simp only [namesOfEntries, List.mem_cons, List.mem_append, ih, exists_eq_or_imp, or_assoc]

theorem mem_targetsOfEntries {entries : List (Text × Node)} {target : Text} :
    target ∈ targetsOfEntries entries ↔ ∃ e ∈ entries, target ∈ e.2.targets := by
  induction entries with
  | nil => simp [targetsOfEntries]
  | cons e rest ih =>
    simp only [targetsOfEntries, List.mem_cons, List.mem_append, ih, exists_eq_or_imp]

variable {root node : Node} {l : Location}

theorem names_get?_subset (h : root.get? l = some node) : node.names ⊆ root.names := by
  induction l generalizing root with
  | nil =>
    obtain rfl : root = node := by simpa using h
    exact List.Subset.refl _
  | cons first l ih =>
    cases root with
    | directory entries =>
      rw [get?_directory_cons] at h
      obtain ⟨child, hchild, hnode⟩ := Option.bind_eq_some_iff.1 h
      exact fun name hname => mem_namesOfEntries.2
        ⟨_, mem_of_lookup hchild, Or.inr (ih hnode hname)⟩
    | file _ | link _ | device _ => cases h

theorem targets_get?_subset (h : root.get? l = some node) : node.targets ⊆ root.targets := by
  induction l generalizing root with
  | nil =>
    obtain rfl : root = node := by simpa using h
    exact List.Subset.refl _
  | cons first l ih =>
    cases root with
    | directory entries =>
      rw [get?_directory_cons] at h
      obtain ⟨child, hchild, hnode⟩ := Option.bind_eq_some_iff.1 h
      exact fun target htarget => mem_targetsOfEntries.2
        ⟨_, mem_of_lookup hchild, ih hnode htarget⟩
    | file _ | link _ | device _ => cases h

/-- The names of a directory are names in the tree. -/
theorem mem_names_of_mem_entries {entries : List (Text × Node)}
    (h : root.get? l = some (.directory entries)) {e : Text × Node} (he : e ∈ entries) :
    e.1 ∈ root.names :=
  names_get?_subset h (mem_namesOfEntries.2 ⟨e, he, Or.inl rfl⟩)

/-- The names on the way to a node are names in the tree. -/
theorem mem_names_of_mem_location (h : root.get? l = some node) :
    ∀ name ∈ l, name ∈ root.names := by
  induction l generalizing root with
  | nil => simp
  | cons first l ih =>
    cases root with
    | directory entries =>
      rw [get?_directory_cons] at h
      obtain ⟨child, hchild, hnode⟩ := Option.bind_eq_some_iff.1 h
      have hmem := mem_of_lookup hchild
      refine List.forall_mem_cons.2
        ⟨mem_namesOfEntries.2 ⟨_, hmem, Or.inl rfl⟩, fun name hname => ?_⟩
      exact mem_namesOfEntries.2 ⟨_, hmem, Or.inr (ih hnode name hname)⟩
    | file _ | link _ | device _ => cases h

theorem mem_namesOfEntries_putEntry {first name : Text} {new : Node}
    {entries : List (Text × Node)} (h : name ∈ namesOfEntries (putEntry first new entries)) :
    name ∈ namesOfEntries entries ∨ name = first ∨ name ∈ new.names := by
  obtain ⟨e, he, hname⟩ := mem_namesOfEntries.1 h
  rcases mem_putEntry he with rfl | he
  · exact Or.inr hname
  · exact Or.inl (mem_namesOfEntries.2 ⟨e, he, hname⟩)

/-- Putting a node somewhere adds no names but those on the way and those of the node. -/
theorem mem_names_put {new : Node} {name : Text} (h : name ∈ (root.put l new).names) :
    name ∈ root.names ∨ name ∈ l ∨ name ∈ new.names := by
  fun_induction root.put l new with
  | case1 => exact Or.inr (Or.inr h)
  | case2 entries first new =>
    exact (mem_namesOfEntries_putEntry h).imp_right (Or.imp_left List.mem_singleton.2)
  | case3 entries first rest new _ child hchild ih =>
    rcases mem_namesOfEntries_putEntry h with hold | rfl | hbelow
    · exact Or.inl hold
    · exact Or.inr (Or.inl List.mem_cons_self)
    · rcases ih hbelow with hname | hrest | hnew
      · exact Or.inl (mem_namesOfEntries.2 ⟨_, mem_of_lookup hchild, Or.inr hname⟩)
      · exact Or.inr (Or.inl (List.mem_cons_of_mem _ hrest))
      · exact Or.inr (Or.inr hnew)
  | case4 | case5 => exact Or.inl h

end Node

namespace Disk

variable {d : Disk}

/-- A file system whose names, and the targets of its links, are read from bytes. -/
structure HasByteNames (d : Disk) : Prop where
  names : ∀ name ∈ d.root.names, name.IsByteName
  targets : ∀ target ∈ d.root.targets, target.IsCString
  workingDirectory : ∀ name ∈ d.workingDirectory, name.IsByteName

/-- Where a search leads, there are names that are read from bytes, if those on the way to where it
begins are and the steps that are sought are. -/
theorem HasByteNames.isByteName_of_follow (hd : d.HasByteNames) {sought : Sought} {links : Nat}
    {l m : Location} {ahead : List Text} (hl : ∀ name ∈ l, name.IsByteName)
    (hahead : ∀ step ∈ ahead, step.IsStep) (h : d.follow sought links l ahead = .ok m) :
    ∀ name ∈ m, name.IsByteName := by
  have hconcat : ∀ {l : Location} {step : Text}, (∀ name ∈ l, name.IsByteName) → step.IsStep →
      ¬step = Path.here → ¬step = Path.above → ∀ name ∈ l ++ [step], name.IsByteName :=
    fun hl hstep hhere habove => List.forall_mem_append.2
      ⟨hl, List.forall_mem_singleton.2 (hstep.isByteName hhere habove)⟩
  fun_induction d.follow sought links l ahead with
  | case1 => exact Except.ok.inj h ▸ hl
  | case2 links at_ ahead entries _ ih => exact ih hl (List.forall_mem_cons.1 hahead).2 h
  | case3 links at_ ahead entries _ _ ih =>
    exact ih (fun name hname => hl name (List.mem_of_mem_dropLast hname))
      (List.forall_mem_cons.1 hahead).2 h
  | case4 _ _ _ _ _ _ hhere habove | case9 _ _ _ _ _ _ hhere habove =>
    exact Except.ok.inj h ▸ hconcat hl (List.forall_mem_cons.1 hahead).1 hhere habove
  | case6 at_ step ahead entries hentries _ _ target hlink _ links ih =>
    have htarget : target.IsCString := by
      refine hd.targets target (Node.targets_get?_subset hentries ?_)
      exact Node.mem_targetsOfEntries.2 ⟨_, Node.mem_of_lookup hlink, List.mem_singleton_self _⟩
    refine ih ?_ ?_ h
    · rw [start]
      split
      · simp
      · exact hl
    · exact List.forall_mem_append.2
        ⟨isStep_of_mem_steps htarget, (List.forall_mem_cons.1 hahead).2⟩
  | case7 links at_ step ahead entries _ hhere habove node _ _ ih =>
    obtain ⟨hstep, hahead⟩ := List.forall_mem_cons.1 hahead
    exact ih (hconcat hl hstep hhere habove) hahead h
  | case5 | case8 | case10 | case11 => cases h

/-- Opening a file adds no name that is not read from bytes. -/
theorem HasByteNames.isByteName_of_openFile (hd : d.HasByteNames) {path : Text}
    (hpath : path.IsDecoded) {l : Location} {d' : Disk} (h : d.openFile path = .ok (l, d')) :
    ∀ name ∈ d'.root.names, name.IsByteName := by
  unfold openFile at h
  cases hfind : d.find .place path with
  | error fault =>
    rw [hfind] at h
    cases h
  | ok m =>
    rw [hfind] at h
    have hm : ∀ name ∈ m, name.IsByteName := by
      unfold find at hfind
      split at hfind
      · cases hfind
      · next hnul =>
        split at hfind
        · cases hfind
        · refine hd.isByteName_of_follow ?_ (isStep_of_mem_steps ⟨hpath, hnul⟩) hfind
          rw [start]
          split
          · simp
          · exact hd.workingDirectory
    have hput : ∀ name ∈ (d.root.put m (.file [])).names, name.IsByteName := by
      intro name hname
      rcases Node.mem_names_put hname with hold | hway | hfile
      · exact hd.names name hold
      · exact hm name hway
      · cases hfile
    simp only [bind, Except.bind] at h
    split at h
    · cases h
    · obtain ⟨-, rfl⟩ := Prod.mk.inj (Except.ok.inj h)
      exact hd.names
    · obtain ⟨-, rfl⟩ := Prod.mk.inj (Except.ok.inj h)
      exact hput

/-- Writing to a file adds no names. -/
theorem names_append_subset {l : Location} {bytes : List UInt8} {d' : Disk}
    (h : d.append l bytes = .ok d') : d'.root.names ⊆ d.root.names := by
  unfold append at h
  split at h
  · next content hfile =>
    obtain rfl := Except.ok.inj h
    intro name hname
    rcases Node.mem_names_put hname with hold | hway | hnew
    · exact hold
    · exact Node.mem_names_of_mem_location hfile name hway
    · cases hnew
  · split at h
    · obtain rfl := Except.ok.inj h
      exact List.Subset.refl _
    · cases h
  · obtain rfl := Except.ok.inj h
    exact List.Subset.refl _

end Disk

end TreeSieve
