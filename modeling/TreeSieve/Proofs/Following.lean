import TreeSieve.Listing
import TreeSieve.Proofs.PathNames

/-!
# Where the entries of a directory are found

A path is followed step by step, so what is behind a directory's path can be followed from the
directory itself (`Disk.follow_append`). An entry that is no link is thus found one name below the
place of its directory (`Disk.locate_join`), and every entry that a listing calls a directory leads
to one (`Disk.locate_subdirectory`).
-/

namespace TreeSieve

open TreeSieve.Sym

namespace Disk

/-! ## Following the parts of a path -/

@[simp] theorem follow_nil (d : Disk) (sought : Sought) (links : Nat) (l : Location) :
    d.follow sought links l [] = .ok l := by
  rw [follow]

/-- Steps can be taken before others, which are then followed from where the first lead, with the
links that are left. -/
theorem follow_append (d : Disk) (links : Nat) (l : Location) (s : List Text) :
    ∃ left, ∀ t, d.follow .target links l (s ++ t) =
      (d.follow .target links l s).bind fun m => d.follow .target left m t := by
  fun_induction d.follow .target links l s
  case case1 links l => exact ⟨links, fun t => rfl⟩
  case case2 hl ih | case3 hl _ ih =>
    obtain ⟨left, hleft⟩ := ih
    refine ⟨left, fun t => ?_⟩
    rw [← hleft t, List.cons_append, follow]
    simp [hl]
  case case6 hl hhere habove _ hlook _ _ ih | case7 hl hhere habove _ _ hlook ih =>
    obtain ⟨left, hleft⟩ := ih
    refine ⟨left, fun t => ?_⟩
    rw [← hleft t, List.cons_append, follow]
    simp [hl, hhere, habove, hlook]
  -- Only an entry that is sought itself can be at the end without being looked at.
  case case4 hend | case9 hend => simp at hend
  -- Where the first steps fail, the others are never taken.
  case case5 hl hhere habove _ hlook hend =>
    refine ⟨0, fun t => ?_⟩
    rw [List.cons_append, follow]
    simp [hl, hhere, habove, hlook, Except.bind]
  case case8 hl hhere habove hlook hlong | case10 hl hhere habove hlook hlong _ =>
    refine ⟨0, fun t => ?_⟩
    rw [List.cons_append, follow]
    simp [hl, hhere, habove, hlook, hlong, Except.bind]
  case case11 hl =>
    refine ⟨0, fun t => ?_⟩
    rw [List.cons_append, follow]
    split
    · exact absurd ‹_› (hl _)
    · rfl

/-- The steps of a path without the one that stays in place. -/
theorem follow_names {d : Disk} {links : Nat} {l m : Location} {p : Text}
    (h : d.follow .target links l (steps p) = .ok m) :
    d.follow .target links l ((Text.pieces slash p).filter (· ≠ [])) = .ok m := by
  rw [steps] at h
  split at h
  · obtain ⟨left, hleft⟩ :=
      follow_append d links l ((Text.pieces slash p).filter (· ≠ []))
    rw [hleft] at h
    cases hs : d.follow .target links l ((Text.pieces slash p).filter (· ≠ [])) with
    | error e =>
      rw [hs] at h
      cases h
    | ok k =>
      rw [hs, Except.bind, follow] at h
      split at h
      · simpa using h
      · cases h
  · exact h

/-! ## The place of an entry -/

theorem locate_eq_ok {d : Disk} {p : Text} {l : Location} (h : d.locate p = .ok l) :
    nul ∉ p ∧ p ≠ [] ∧
      d.follow .target maxLinks (start p d.workingDirectory) (steps p) = .ok l := by
  unfold locate find at h
  split at h
  · cases h
  · split at h
    · cases h
    · exact ⟨‹_›, ‹_›, h⟩

/-- An entry that is no link is found one name below its directory. -/
theorem locate_join {d : Disk} {p name : Text} {l : Location} {entries : List (Text × Node)}
    {node : Node} (hname : Path.IsName name) (hp : d.locate p = .ok l)
    (hl : d.root.get? l = some (.directory entries)) (hm : entries.lookup name = some node)
    (hnode : node.isLink = false) : d.locate (Path.join p name) = .ok (l ++ [name]) := by
  obtain ⟨hnul, hne, hf⟩ := locate_eq_ok hp
  obtain ⟨left, hleft⟩ :=
    follow_append d maxLinks (start p d.workingDirectory) ((Text.pieces slash p).filter (· ≠ []))
  rw [follow_names hf] at hleft
  have hlast : d.follow .target left l [name] = .ok (l ++ [name]) := by
    rw [follow]
    cases node <;> simp_all [Path.IsName, Node.isLink]
  have hnul' : nul ∉ Path.join p name := by
    rw [Path.join_isName hname]
    split <;> simp [hnul, hname.2.2.2.2]
  have hne' : Path.join p name ≠ [] := by
    rw [Path.join_isName hname]
    split <;> simp [hne]
  have hstart : start (Path.join p name) d.workingDirectory = start p d.workingDirectory := by
    rw [start, start, Path.isAbsolute_join hname]
  rw [locate, find, if_neg hnul', if_neg hne', hstart, Path.steps_join hname, hleft,
    Except.bind, hlast]

theorem has_of_isDirectory {d : Disk} {p : Text} (h : d.isDirectory p = true) :
    d.has p = true := by
  rw [isDirectory] at h
  rw [has]
  cases hnode : d.node? p with
  | none =>
    rw [hnode] at h
    cases h
  | some node => rfl

/-! ## Listings -/

theorem entries_eq {d : Disk} {p : Text} : d.entries p =
    match d.locate p with
    | .error e => .error e
    | .ok l =>
      match d.root.get? l with
      | some (.directory entries) => if l ∈ d.unreadable then .error .denied else .ok entries
      | _ => .error .notDirectory := by
  rw [Disk.entries]
  cases d.locate p <;> rfl

theorem read_eq {d : Disk} {p : Text} : d.read p =
    match d.locate p with
    | .error e => .error e
    | .ok l =>
      match d.root.get? l with
      | some (.file content) => if l ∈ d.unreadable then .error .denied else .ok content
      | some (.directory _) => .error .isDirectory
      | _ => .ok [] := by
  rw [Disk.read]
  cases d.locate p <;> rfl

theorem entries_eq_ok {d : Disk} {p : Text} {entries : List (Text × Node)}
    (h : d.entries p = .ok entries) :
    ∃ l, d.locate p = .ok l ∧ d.root.get? l = some (.directory entries) := by
  rw [entries_eq] at h
  split at h
  · cases h
  · next l hl =>
    split at h
    · next es hes =>
      split at h
      · cases h
      · obtain rfl : es = entries := by simpa using h
        exact ⟨l, hl, hes⟩
    · cases h

theorem scan_eq_ok {d : Disk} {p shown : Text} {follow : Bool} {children : List Entry}
    (h : d.scan p shown follow = .ok children) :
    ∃ entries, d.entries p = .ok entries ∧
      children = (entries.mergeSort fun a b => a.1.le b.1).map fun child =>
        { name := child.1
          path := Path.join shown child.1
          isDirectory := d.entryIsDirectory p follow child
          isHidden := Path.isHiddenName child.1 } := by
  unfold scan at h
  cases he : d.entries p with
  | error e => rw [he] at h; cases h
  | ok entries =>
    rw [he] at h
    exact ⟨entries, rfl, (Except.ok.inj h).symm⟩

section Scan

variable {d : Disk} (hd : d.WellFormed) {p shown : Text} {follow : Bool} {children : List Entry}
  (hscan : d.scan p shown follow = .ok children)

include hscan in
/-- A listed entry is an entry of the directory, shown under the directory's path. -/
theorem mem_scan {e : Entry} (he : e ∈ children) :
    ∃ l entries node, d.locate p = .ok l ∧ d.root.get? l = some (.directory entries) ∧
      (e.name, node) ∈ entries ∧ e.path = Path.join shown e.name ∧
      e.isDirectory = d.entryIsDirectory p follow (e.name, node) := by
  obtain ⟨entries, hentries, rfl⟩ := scan_eq_ok hscan
  obtain ⟨l, hl, hget⟩ := entries_eq_ok hentries
  obtain ⟨⟨name, node⟩, hchild, rfl⟩ := List.mem_map.1 he
  exact ⟨l, entries, node, hl, hget, by simpa using hchild, rfl, rfl⟩

include hscan in
/-- Every entry of the directory is listed. -/
theorem exists_mem_scan {l : Location} (hl : d.locate p = .ok l) {entries : List (Text × Node)}
    (hget : d.root.get? l = some (.directory entries)) {child : Text × Node}
    (hchild : child ∈ entries) :
    ∃ e ∈ children, e.name = child.1 ∧ e.isHidden = Path.isHiddenName e.name ∧
      e.isDirectory = d.entryIsDirectory p follow child := by
  obtain ⟨listed, hlisted, rfl⟩ := scan_eq_ok hscan
  obtain ⟨m, hm, hgetm⟩ := entries_eq_ok hlisted
  obtain rfl := Except.ok.inj (hl.symm.trans hm)
  obtain rfl : entries = listed := by simpa [hget] using hgetm
  exact ⟨_, List.mem_map_of_mem (List.mem_mergeSort.2 hchild), rfl, rfl, rfl⟩

include hd hscan

theorem isName_of_mem_scan {e : Entry} (he : e ∈ children) : Path.IsName e.name := by
  obtain ⟨l, entries, node, -, hget, hm, -⟩ := mem_scan hscan he
  exact (hd.entries hget).2 _ hm

/-- The entries of a listing have different names. -/
theorem nodup_names_scan : (children.map (·.name)).Nodup := by
  obtain ⟨entries, hentries, rfl⟩ := scan_eq_ok hscan
  obtain ⟨l, -, hget⟩ := entries_eq_ok hentries
  rw [List.map_map]
  exact ((List.mergeSort_perm entries _).map (·.1)).nodup_iff.2 (hd.entries hget).1

omit hd in
theorem length_scan_lt : children.length < d.root.size := by
  obtain ⟨entries, hentries, rfl⟩ := scan_eq_ok hscan
  obtain ⟨l, -, hget⟩ := entries_eq_ok hentries
  simpa using Node.length_entries_lt hget

/-- **A listed directory** leads to a directory, which is one name below the listed one unless
links are followed. -/
theorem locate_subdirectory {e : Entry} (he : e ∈ children) (hdir : e.isDirectory = true) :
    ∃ l m entries, d.locate p = .ok l ∧ d.locate (Path.join p e.name) = .ok m ∧
      d.root.get? m = some (.directory entries) ∧ (follow = false → m = l ++ [e.name]) := by
  obtain ⟨l, entries, node, hl, hget, hm, -, hkind⟩ := mem_scan hscan he
  have hname := isName_of_mem_scan hd hscan he
  have hlook := Node.lookup_of_mem (hd.entries hget).1 hm
  rw [hdir] at hkind
  cases node with
  | directory below =>
    exact ⟨l, _, below, hl, locate_join hname hl hget hlook rfl,
      Node.get?_of_mem hget (hd.entries hget).1 hm, fun _ => rfl⟩
  | link target =>
    simp only [entryIsDirectory, Bool.true_eq, Bool.and_eq_true, isDirectory, node?] at hkind
    obtain ⟨hfollow, hany⟩ := hkind
    cases hj : d.locate (Path.join p e.name) with
    | error _ => rw [hj] at hany; simp at hany
    | ok m =>
      rw [hj] at hany
      obtain ⟨node, hnode, hisdir⟩ := (Option.any_eq_true _ _).1 hany
      cases node with
      | directory below => exact ⟨l, m, below, hl, rfl, hnode, by simp [hfollow]⟩
      | _ => simp [Node.isDirectory] at hisdir
  | file content => simp [entryIsDirectory] at hkind
  | device kind => simp [entryIsDirectory] at hkind

end Scan

end Disk

end TreeSieve
