import Mathlib
import TreeSieve.Disk

/-!
# Well-formed file trees

The entries of a directory have different names, and a name is never empty, is neither `.` nor
`..`, and holds no slash and no NUL. Of a tree like this every node has one location
(`Node.get?_of_mem`), so a list of different places of a tree is never longer than the tree is
large (`Node.length_le_size`). That bound is what makes walks end.

All of Mathlib is imported here for the modules that build on this one. They evaluate closed walks,
and the equations of library functions that this takes are spread over the whole library.
-/

namespace TreeSieve

open TreeSieve.Sym

/-- A text that can be the name of an entry. -/
def Path.IsName (name : Text) : Prop :=
  name ≠ [] ∧ name ≠ Path.here ∧ name ≠ Path.above ∧ slash ∉ name ∧ nul ∉ name

instance : DecidablePred Path.IsName := fun _ => inferInstanceAs (Decidable (_ ∧ _))

namespace Node

mutual

/-- Whether the entries of every directory of a tree have different names that are names. -/
def isWellFormed : Node → Bool
  | .directory entries => entriesWellFormed entries
  | _ => true

/-- Whether entries have different names that are names, and well-formed nodes. -/
def entriesWellFormed : List (Text × Node) → Bool
  | [] => true
  | (name, node) :: rest =>
    decide (Path.IsName name) && !(rest.map (·.1)).contains name && node.isWellFormed &&
      entriesWellFormed rest

end

/-! ## Entries -/

theorem entriesWellFormed_iff {entries : List (Text × Node)} :
    entriesWellFormed entries = true ↔
      (entries.map (·.1)).Nodup ∧
        ∀ e ∈ entries, Path.IsName e.1 ∧ e.2.isWellFormed = true := by
  induction entries with
  | nil => simp [entriesWellFormed]
  | cons e rest ih =>
    obtain ⟨name, node⟩ := e
    simp only [entriesWellFormed, Bool.and_eq_true, decide_eq_true_eq, Bool.not_eq_true',
      List.contains_eq_mem, decide_eq_false_iff_not, ih, List.map_cons, List.nodup_cons,
      List.forall_mem_cons]
    tauto

theorem lookup_of_mem {entries : List (Text × Node)} {name : Text} {node : Node}
    (hn : (entries.map (·.1)).Nodup) (hm : (name, node) ∈ entries) :
    entries.lookup name = some node := by
  induction entries with
  | nil => simp at hm
  | cons e rest ih =>
    obtain ⟨n, m⟩ := e
    rw [List.map_cons, List.nodup_cons] at hn
    rw [List.lookup_cons]
    rcases List.mem_cons.1 hm with heq | hm
    · obtain ⟨rfl, rfl⟩ := Prod.mk.inj heq
      simp
    · have hne : (name == n) = false :=
        beq_eq_false_iff_ne.2 fun h => hn.1 (List.mem_map.2 ⟨(name, node), hm, h⟩)
      rw [hne]
      exact ih hn.2 hm

theorem mem_of_lookup {entries : List (Text × Node)} {name : Text} {node : Node}
    (h : entries.lookup name = some node) : (name, node) ∈ entries := by
  obtain ⟨before, after, rfl, -⟩ := List.lookup_eq_some_iff.1 h
  simp

/-- An entry is found by its name, and the others are found as if it were not there. -/
theorem lookup_middle {before : List (Text × Node)} {name : Text}
    (hname : before.lookup name = none) (node : Node) (after : List (Text × Node)) (n : Text) :
    (before ++ (name, node) :: after).lookup n =
      if n = name then some node else (before ++ after).lookup n := by
  rw [List.lookup_append, List.lookup_append, List.lookup_cons]
  by_cases hn : n = name
  · rw [if_pos hn, hn, hname, beq_self_eq_true, Option.none_or]
  · rw [if_neg hn, beq_false_of_ne hn]

/-! ## Nodes on a way -/

@[simp] theorem get?_nil (node : Node) : node.get? [] = some node := by
  cases node <;> rfl

theorem get?_directory_cons (entries : List (Text × Node)) (name : Text) (rest : Location) :
    (Node.directory entries).get? (name :: rest) = (entries.lookup name).bind (·.get? rest) := by
  rw [get?]
  cases entries.lookup name <;> rfl

theorem get?_append (node : Node) (l m : Location) :
    node.get? (l ++ m) = (node.get? l).bind (·.get? m) := by
  induction l generalizing node with
  | nil => simp
  | cons name l ih =>
    cases node with
    | directory entries =>
      rw [List.cons_append, get?_directory_cons, get?_directory_cons, Option.bind_assoc]
      exact congrArg _ (funext fun child => ih child)
    | _ => rfl

/-- An entry of a directory stands one name below it. -/
theorem get?_of_mem {root node : Node} {l : Location} {entries : List (Text × Node)} {name : Text}
    (hl : root.get? l = some (.directory entries)) (hn : (entries.map (·.1)).Nodup)
    (hm : (name, node) ∈ entries) : root.get? (l ++ [name]) = some node := by
  rw [get?_append, hl, Option.bind_some, get?_directory_cons, lookup_of_mem hn hm]
  simp

theorem isWellFormed_get? {root node : Node} {l : Location} (hr : root.isWellFormed = true)
    (hl : root.get? l = some node) : node.isWellFormed = true := by
  induction l generalizing root with
  | nil =>
    obtain rfl : root = node := by simpa using hl
    exact hr
  | cons name l ih =>
    cases root with
    | directory entries =>
      rw [get?_directory_cons] at hl
      obtain ⟨child, hc, hl⟩ := Option.bind_eq_some_iff.1 hl
      exact ih ((entriesWellFormed_iff.1 hr).2 _ (mem_of_lookup hc)).2 hl
    | _ => cases hl

/-! ## The size of a tree -/

mutual

/-- The locations of all nodes of a tree. -/
def locations : Node → List Location
  | .directory entries => [] :: locationsOfEntries entries
  | _ => [[]]

/-- The locations of all nodes below the entries of a directory. -/
def locationsOfEntries : List (Text × Node) → List Location
  | [] => []
  | (name, node) :: rest => node.locations.map (name :: ·) ++ locationsOfEntries rest

end

theorem size_pos (node : Node) : 0 < node.size := by
  cases node <;> simp only [size] <;> omega

theorem length_le_sizeEntries (entries : List (Text × Node)) :
    entries.length ≤ sizeEntries entries := by
  induction entries with
  | nil => simp [sizeEntries]
  | cons e rest ih =>
    have := size_pos e.2
    simp only [List.length_cons, sizeEntries]
    omega

theorem size_le_sizeEntries {entries : List (Text × Node)} {e : Text × Node} (h : e ∈ entries) :
    e.2.size ≤ sizeEntries entries := by
  induction entries with
  | nil => simp at h
  | cons f rest ih =>
    simp only [sizeEntries]
    rcases List.mem_cons.1 h with rfl | h
    · omega
    · have := ih h
      omega

theorem size_get?_le {root node : Node} {l : Location} (hl : root.get? l = some node) :
    node.size ≤ root.size := by
  induction l generalizing root with
  | nil =>
    obtain rfl : root = node := by simpa using hl
    exact Nat.le_refl _
  | cons name l ih =>
    cases root with
    | directory entries =>
      rw [get?_directory_cons] at hl
      obtain ⟨child, hc, hl⟩ := Option.bind_eq_some_iff.1 hl
      have h1 := ih hl
      have h2 : child.size ≤ sizeEntries entries := size_le_sizeEntries (mem_of_lookup hc)
      simp only [size]
      omega
    | _ => cases hl

/-- A directory of a tree has fewer entries than the tree has nodes. -/
theorem length_entries_lt {root : Node} {l : Location} {entries : List (Text × Node)}
    (hl : root.get? l = some (.directory entries)) : entries.length < root.size := by
  have h1 := size_get?_le hl
  have h2 := length_le_sizeEntries entries
  simp only [size] at h1
  omega

mutual

theorem length_locations : ∀ node : Node, node.locations.length = node.size
  | .directory entries => by
    simp only [locations, size, List.length_cons, length_locationsOfEntries entries]
    omega
  | .file _ => rfl
  | .link _ => rfl
  | .device _ => rfl

theorem length_locationsOfEntries : ∀ entries : List (Text × Node),
    (locationsOfEntries entries).length = sizeEntries entries
  | [] => rfl
  | (name, node) :: rest => by
    simp only [locationsOfEntries, sizeEntries, List.length_append, List.length_map,
      length_locations node, length_locationsOfEntries rest]

end

theorem mem_locationsOfEntries {entries : List (Text × Node)} {name : Text} {node : Node}
    {l : Location} (hm : (name, node) ∈ entries) (hl : l ∈ node.locations) :
    name :: l ∈ locationsOfEntries entries := by
  induction entries with
  | nil => simp at hm
  | cons e rest ih =>
    rw [locationsOfEntries, List.mem_append]
    rcases List.mem_cons.1 hm with rfl | hm
    · exact Or.inl (List.mem_map.2 ⟨l, hl, rfl⟩)
    · exact Or.inr (ih hm)

theorem mem_locations {root node : Node} {l : Location} (hl : root.get? l = some node) :
    l ∈ root.locations := by
  induction l generalizing root with
  | nil => cases root <;> simp [locations]
  | cons name l ih =>
    cases root with
    | directory entries =>
      rw [get?_directory_cons] at hl
      obtain ⟨child, hc, hl⟩ := Option.bind_eq_some_iff.1 hl
      exact List.mem_cons_of_mem _ (mem_locationsOfEntries (mem_of_lookup hc) (ih hl))
    | _ => cases hl

/-- **Places of a tree**: a list of different ones is never longer than the tree is large. -/
theorem length_le_size {root : Node} {ls : List Location} (hn : ls.Nodup)
    (hl : ∀ l ∈ ls, (root.get? l).isSome) : ls.length ≤ root.size := by
  rw [← length_locations]
  refine (hn.subperm fun l h => ?_).length_le
  obtain ⟨node, hnode⟩ := Option.isSome_iff_exists.1 (hl l h)
  exact mem_locations hnode

/-- The locations of the directories of a tree. -/
def directories (node : Node) : List Location :=
  node.locations.filter fun l => (node.get? l).any isDirectory

/-- **Directories of a tree**: a list of different ones is never longer than the tree has
directories. -/
theorem length_le_directories {root : Node} {ls : List Location} (hn : ls.Nodup)
    (hl : ∀ l ∈ ls, (root.get? l).any isDirectory = true) :
    ls.length ≤ root.directories.length := by
  refine (hn.subperm fun l h => ?_).length_le
  obtain ⟨node, hnode, -⟩ := (Option.any_eq_true _ _).1 (hl l h)
  exact List.mem_filter.2 ⟨mem_locations hnode, hl l h⟩

end Node

/-- A file system whose tree is well formed. -/
def Disk.WellFormed (d : Disk) : Prop := d.root.isWellFormed = true

instance : DecidablePred Disk.WellFormed := fun d =>
  inferInstanceAs (Decidable (d.root.isWellFormed = true))

/-- The entries of every directory have different names, and these are names. -/
theorem Disk.WellFormed.entries {d : Disk} (hd : d.WellFormed) {l : Location}
    {entries : List (Text × Node)} (hl : d.root.get? l = some (.directory entries)) :
    (entries.map (·.1)).Nodup ∧ ∀ e ∈ entries, Path.IsName e.1 := by
  obtain ⟨hn, he⟩ := Node.entriesWellFormed_iff.1 (Node.isWellFormed_get? hd hl)
  exact ⟨hn, fun e h => (he e h).1⟩

end TreeSieve
