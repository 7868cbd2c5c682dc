import TreeSieve.Proofs.Isolation

/-!
# Files that are overwritten

Writing a file anew changes its content and nothing else: every place still has a node of the same
kind, so the file system resembles what it was (`Disk.resembles_overwrite`), directories enumerate
their entries in the same order (`Node.exists_entries_put_file`), and all other files are read as
before (`Disk.read_overwrite_of_ne`).
-/

namespace TreeSieve

namespace Node

variable {entries : List (Text × Node)} {name : Text} {old : Node}

/-! ## Entries -/

theorem lookup_putEntry (name : Text) (new : Node) (entries : List (Text × Node)) (n : Text) :
    (putEntry name new entries).lookup n = if n = name then some new else entries.lookup n := by
  have hcons : ∀ first node rest, List.lookup n ((first, node) :: rest) =
      if n = first then some node else rest.lookup n :=
    fun first node rest => lookup_middle List.lookup_nil node rest n
  induction entries with
  | nil => exact hcons name new []
  | cons e rest ih =>
    obtain ⟨first, node⟩ := e
    rw [putEntry, hcons]
    split
    · next hfirst =>
      subst hfirst
      rw [hcons]
      split <;> rfl
    · next hfirst =>
      rw [hcons, ih]
      by_cases hn : n = first
      · rw [if_pos hn, if_pos hn, if_neg (hn ▸ hfirst)]
      · rw [if_neg hn, if_neg hn]

/-- An entry that is there keeps its place among the others. -/
theorem map_putEntry {β : Type} {f : Text × Node → β} {new : Node}
    (h : entries.lookup name = some old) (hsame : f (name, new) = f (name, old)) :
    (putEntry name new entries).map f = entries.map f := by
  induction entries with
  | nil => cases h
  | cons e rest ih =>
    obtain ⟨first, node⟩ := e
    rw [putEntry]
    by_cases hfirst : first = name
    · subst hfirst
      obtain rfl : node = old := by simpa using h
      rw [if_pos rfl, List.map_cons, List.map_cons, hsame]
    · rw [List.lookup_cons, beq_false_of_ne (Ne.symm hfirst)] at h
      rw [if_neg hfirst, List.map_cons, List.map_cons, ih h]

theorem map_fst_putEntry (h : entries.lookup name = some old) (new : Node) :
    (putEntry name new entries).map (·.1) = entries.map (·.1) :=
  map_putEntry h rfl

theorem putEntry_putEntry (name : Text) (first new : Node) (entries : List (Text × Node)) :
    putEntry name new (putEntry name first entries) = putEntry name new entries := by
  induction entries with
  | nil => simp [putEntry]
  | cons e rest ih =>
    obtain ⟨n, node⟩ := e
    by_cases hn : n = name
    · simp [putEntry, hn]
    · simp [putEntry, hn, ih]

theorem mem_putEntry {new : Node} {e : Text × Node} (h : e ∈ putEntry name new entries) :
    e = (name, new) ∨ e ∈ entries := by
  induction entries with
  | nil => exact Or.inl (List.mem_singleton.1 h)
  | cons f rest ih =>
    obtain ⟨first, node⟩ := f
    rw [putEntry] at h
    split at h
    · next hfirst =>
      rcases List.mem_cons.1 h with rfl | h
      · exact Or.inl (hfirst ▸ rfl)
      · exact Or.inr (List.mem_cons_of_mem _ h)
    · rcases List.mem_cons.1 h with rfl | h
      · exact Or.inr List.mem_cons_self
      · exact (ih h).imp_right (List.mem_cons_of_mem _)

/-! ## Trees -/

theorem put_directory_cons (h : entries.lookup name = some old) (l : Location) (new : Node) :
    (directory entries).put (name :: l) new =
      directory (putEntry name (old.put l new) entries) := by
  cases l with
  | nil => rw [put, put]
  | cons n l => rw [put, h]; simp

/-- Where a file is overwritten, its new content is found, and all else is found as before. -/
theorem get?_put_file {root : Node} {l : Location} {content : List UInt8}
    (h : root.get? l = some (.file content)) (bytes : List UInt8) (m : Location) :
    ((root.put l (.file bytes)).get? m).map bare =
      if m = l then some (.file bytes) else (root.get? m).map bare := by
  induction l generalizing root m with
  | nil =>
    obtain rfl : root = .file content := by simpa using h
    cases m <;> rfl
  | cons name l ih =>
    cases root with
    | directory entries =>
      rw [get?_directory_cons] at h
      obtain ⟨child, hchild, hfile⟩ := Option.bind_eq_some_iff.1 h
      rw [put_directory_cons hchild]
      cases m with
      | nil => rfl
      | cons n m =>
        rw [get?_directory_cons, get?_directory_cons, lookup_putEntry]
        by_cases hn : n = name
        · subst hn
          simpa [hchild] using ih hfile m
        · simp [hn]
    | file _ | link _ | device _ => cases h

theorem isWellFormed_put {root new : Node} {l : Location} (hroot : root.isWellFormed = true)
    (h : root.get? l = some old) (hnew : new.isWellFormed = true) :
    (root.put l new).isWellFormed = true := by
  induction l generalizing root with
  | nil => cases root <;> exact hnew
  | cons name l ih =>
    cases root with
    | directory entries =>
      rw [get?_directory_cons] at h
      obtain ⟨child, hchild, hnode⟩ := Option.bind_eq_some_iff.1 h
      rw [isWellFormed, entriesWellFormed_iff] at hroot
      obtain ⟨hnodup, hentries⟩ := hroot
      obtain ⟨hname, hwellFormed⟩ := hentries _ (mem_of_lookup hchild)
      rw [put_directory_cons hchild, isWellFormed, entriesWellFormed_iff, map_fst_putEntry hchild]
      refine ⟨hnodup, fun e he => ?_⟩
      rcases mem_putEntry he with rfl | he
      · exact ⟨hname, ih hwellFormed hnode⟩
      · exact hentries e he
    | file _ | link _ | device _ => cases h

theorem sizeEntries_eq (entries : List (Text × Node)) :
    sizeEntries entries = (entries.map (·.2.size)).sum := by
  induction entries with
  | nil => simp [sizeEntries]
  | cons e rest ih => simp [sizeEntries, ih]

section File

variable {root : Node} {l : Location} {content : List UInt8}
  (h : root.get? l = some (.file content)) (bytes : List UInt8)

include h

theorem put_put_file (more : List UInt8) :
    (root.put l (.file bytes)).put l (.file more) = root.put l (.file more) := by
  induction l generalizing root with
  | nil =>
    obtain rfl : root = .file content := by simpa using h
    rfl
  | cons name l ih =>
    cases root with
    | directory entries =>
      rw [get?_directory_cons] at h
      obtain ⟨child, hchild, hfile⟩ := Option.bind_eq_some_iff.1 h
      have hput : (putEntry name (child.put l (.file bytes)) entries).lookup name = _ :=
        (lookup_putEntry ..).trans (if_pos rfl)
      rw [put_directory_cons hchild, put_directory_cons hput, ih hfile, putEntry_putEntry,
        put_directory_cons hchild]
    | file _ | link _ | device _ => cases h

theorem kind_put_file : (root.put l (.file bytes)).kind = root.kind := by
  cases l with
  | nil =>
    obtain rfl : root = .file content := by simpa using h
    rfl
  | cons name l =>
    cases root with
    | directory entries =>
      rw [get?_directory_cons] at h
      obtain ⟨child, hchild, -⟩ := Option.bind_eq_some_iff.1 h
      rw [put_directory_cons hchild]
      rfl
    | file _ | link _ | device _ => cases h

theorem size_put_file : (root.put l (.file bytes)).size = root.size := by
  induction l generalizing root with
  | nil =>
    obtain rfl : root = .file content := by simpa using h
    simp only [put, size]
  | cons name l ih =>
    cases root with
    | directory entries =>
      rw [get?_directory_cons] at h
      obtain ⟨child, hchild, hfile⟩ := Option.bind_eq_some_iff.1 h
      rw [put_directory_cons hchild, size, size, sizeEntries_eq, sizeEntries_eq,
        map_putEntry hchild (ih hfile)]
    | file _ | link _ | device _ => cases h

/-- The entries of every directory keep their names, kinds and order. -/
theorem exists_entries_put_file {m : Location} {entries : List (Text × Node)}
    (hm : root.get? m = some (.directory entries)) : ∃ entries',
      (root.put l (.file bytes)).get? m = some (.directory entries') ∧
        entries'.map (fun e => (e.1, e.2.kind)) = entries.map fun e => (e.1, e.2.kind) := by
  induction l generalizing root m with
  | nil =>
    obtain rfl : root = .file content := by simpa using h
    cases m <;> cases hm
  | cons name l ih =>
    cases root with
    | directory children =>
      rw [get?_directory_cons] at h
      obtain ⟨child, hchild, hfile⟩ := Option.bind_eq_some_iff.1 h
      rw [put_directory_cons hchild]
      cases m with
      | nil =>
        obtain rfl : children = entries := by simpa using hm
        refine ⟨_, rfl, map_putEntry hchild ?_⟩
        rw [kind_put_file hfile]
      | cons n m =>
        rw [get?_directory_cons] at hm ⊢
        rw [lookup_putEntry]
        by_cases hn : n = name
        · subst hn
          rw [hchild] at hm
          rw [if_pos rfl]
          exact ih hfile hm
        · rw [if_neg hn]
          exact ⟨entries, hm, rfl⟩
    | file _ | link _ | device _ => cases h

end File
end Node

namespace Disk

/-- The file system with other bytes in the file at a place. -/
def overwrite (d : Disk) (l : Location) (bytes : List UInt8) : Disk :=
  { d with root := d.root.put l (.file bytes) }

variable {d : Disk} {l : Location} {content : List UInt8} (h : d.root.get? l = some (.file content))
  (bytes : List UInt8)

include h

theorem WellFormed.overwrite (hd : d.WellFormed) : (d.overwrite l bytes).WellFormed :=
  Node.isWellFormed_put hd h rfl

/-- **Only contents change.** -/
theorem resembles_overwrite : d.Resembles (d.overwrite l bytes) := by
  refine ⟨rfl, rfl, fun m => ?_⟩
  have hkind : ∀ found : Option Node,
      found.map Node.kind = (found.map Node.bare).map Node.kind := by
    rintro (_ | _ | _ | _ | _) <;> rfl
  have hbare : ((d.overwrite l bytes).root.get? m).map Node.bare = _ :=
    Node.get?_put_file h bytes m
  rw [hkind, hbare]
  by_cases hm : m = l
  · rw [if_pos hm, hm, h]
    rfl
  · rw [if_neg hm, ← hkind]

theorem size_overwrite : (d.overwrite l bytes).root.size = d.root.size :=
  Node.size_put_file h bytes

/-- Only what is written last is there in the end. -/
theorem overwrite_overwrite (more : List UInt8) :
    (d.overwrite l bytes).overwrite l more = d.overwrite l more := by
  rw [overwrite, overwrite, overwrite, Node.put_put_file h]

/-- The overwritten file holds the new bytes. -/
theorem get?_overwrite : (d.overwrite l bytes).root.get? l = some (.file bytes) := by
  have hbare : ((d.overwrite l bytes).root.get? l).map Node.bare = _ :=
    Node.get?_put_file h bytes l
  rw [if_pos rfl, Option.map_eq_some_iff] at hbare
  obtain ⟨node, hnode, hfile⟩ := hbare
  rw [hnode, Node.bare_eq_file_iff.1 hfile]

/-- Other files are read as before. -/
theorem read_overwrite_of_ne {path : Text} {m : Location} (hpath : d.locate path = .ok m)
    (hm : m ≠ l) : (d.overwrite l bytes).read path = d.read path := by
  have hbare : ((d.overwrite l bytes).root.get? m).map Node.bare = _ :=
    Node.get?_put_file h bytes m
  rw [if_neg hm] at hbare
  rw [read_eq, read_eq, (resembles_overwrite h bytes).locate, hpath]
  cases hnode : d.root.get? m with
  | none =>
    rw [hnode] at hbare
    simp only [Option.map_eq_none_iff.1 hbare, hnode]
  | some node =>
    rw [hnode] at hbare
    obtain ⟨node', hnode', hsame⟩ := Option.map_eq_some_iff.1 hbare
    simp only [hnode, hnode']
    cases node with
    | file content =>
      obtain rfl := Node.bare_eq_file_iff.1 (hsame.trans (Node.bare_eq_file_iff.2 rfl))
      rfl
    | link _ | device _ | directory _ => cases node' <;> first | rfl | cases hsame

end Disk

end TreeSieve
