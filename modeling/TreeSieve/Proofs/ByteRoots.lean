import TreeSieve.Proofs.ByteTrees
import TreeSieve.Walk

/-!
# Roots of names that are bytes

A path with wildcards stands for paths that are put together from its own parts and from names of
the tree. So a property of paths that depends on their parts alone holds for all roots of an
argument if the argument has it and the names of the tree have it
(`RootArgument.forall_mem_resolve`).
-/

namespace TreeSieve

open TreeSieve.Sym

theorem exists_of_bind_eq_ok {ε α β : Type} {x : Except ε α} {f : α → Except ε β} {b : β}
    (h : x >>= f = .ok b) : ∃ a, x = .ok a ∧ f a = .ok b := by
  cases x with
  | error e => cases h
  | ok a => exact ⟨a, rfl, h⟩

theorem exists_of_mem_mapM_eq_ok {ε α β : Type} {f : α → Except ε β} {xs : List α} {ys : List β}
    (h : xs.mapM f = .ok ys) {y : β} (hy : y ∈ ys) : ∃ x ∈ xs, f x = .ok y := by
  induction xs generalizing ys with
  | nil =>
    obtain rfl : [] = ys := Except.ok.inj h
    cases hy
  | cons x xs ih =>
    rw [List.mapM_cons] at h
    obtain ⟨first, hfirst, h⟩ := exists_of_bind_eq_ok h
    obtain ⟨rest, hrest, h⟩ := exists_of_bind_eq_ok h
    obtain rfl : first :: rest = ys := Except.ok.inj h
    rcases List.mem_cons.1 hy with rfl | hy
    · exact ⟨x, List.mem_cons_self, hfirst⟩
    · obtain ⟨x', hx', hf⟩ := ih hrest hy
      exact ⟨x', List.mem_cons_of_mem _ hx', hf⟩

namespace Wildcard

variable {P : Text → Prop} (hP : Path.Piecewise P) {d : Disk} (hd : ∀ name ∈ d.root.names, P name)

include hP in
theorem joinNames_piecewise {directory name : Text} (hdirectory : P directory) (hname : P name) :
    P (joinNames directory name) := by
  rw [joinNames]
  split
  · next hnil =>
    rcases hnil with rfl | rfl
    · exact hname
    · rwa [List.append_nil]
  · exact hP.join hdirectory hname

include hd in
theorem forall_mem_namesIn {only : Bool} {directory : Text} {names : List Text}
    (h : namesIn d only directory = .ok names) : ∀ name ∈ names, P name := by
  unfold namesIn at h
  simp only at h
  split at h
  · next children hchildren =>
    obtain rfl := Except.ok.inj h
    obtain ⟨l, -, hentries⟩ := Disk.entries_eq_ok hchildren
    intro name hname
    obtain ⟨child, hchild, rfl⟩ := List.mem_map.1 hname
    exact hd _ (Node.mem_names_of_mem_entries hentries (List.mem_of_mem_filter hchild))
  · cases h
  · obtain rfl := Except.ok.inj h
    simp

include hP hd

theorem forall_mem_below {only : Bool} {levels : Nat} {directory : Text} {found : List Text}
    (h : below d only levels directory = .ok found) : ∀ path ∈ found, P path := by
  induction levels generalizing directory found with
  | zero =>
    obtain rfl := Except.ok.inj h
    simp
  | succ levels ih =>
    rw [below] at h
    obtain ⟨names, hnames, h⟩ := exists_of_bind_eq_ok h
    obtain ⟨paths, hpaths, h⟩ := exists_of_bind_eq_ok h
    obtain rfl : paths.flatten = found := Except.ok.inj h
    intro path hpath
    obtain ⟨group, hgroup, hpath⟩ := List.mem_flatten.1 hpath
    obtain ⟨name, hname, hbelow⟩ := exists_of_mem_mapM_eq_ok hpaths hgroup
    have hname := forall_mem_namesIn hd hnames name (List.mem_of_mem_filter hname)
    obtain ⟨deeper, hdeeper, hbelow⟩ := exists_of_bind_eq_ok hbelow
    obtain rfl : name :: deeper.map (joinNames name) = group := Except.ok.inj hbelow
    rcases List.mem_cons.1 hpath with rfl | hpath
    · exact hname
    · obtain ⟨rest, hrest, rfl⟩ := List.mem_map.1 hpath
      exact joinNames_piecewise hP hname (ih hdeeper rest hrest)

theorem forall_mem_matchesIn {only : Bool} {directory name : Text} (hname : P name)
    {found : List Text} (h : matchesIn d only directory name = .ok found) :
    ∀ path ∈ found, P path := by
  unfold matchesIn at h
  split at h
  · obtain ⟨paths, hpaths, h⟩ := exists_of_bind_eq_ok h
    obtain rfl : [] :: paths = found := Except.ok.inj h
    exact List.forall_mem_cons.2 ⟨hP.nil, forall_mem_below hP hd hpaths⟩
  · split at h
    · obtain ⟨names, hnames, h⟩ := exists_of_bind_eq_ok h
      obtain rfl := Except.ok.inj h
      intro path hpath
      have hpath := List.mem_of_mem_filter hpath
      refine forall_mem_namesIn hd hnames path ?_
      split at hpath
      · exact hpath
      · exact List.mem_of_mem_filter hpath
    · split at h
      · obtain rfl := Except.ok.inj h
        split <;> simp [hP.nil]
      · obtain rfl := Except.ok.inj h
        split <;> simp [hname]

/-- The matches in all directories that were found for the names before the last one. -/
theorem forall_mem_matches {only : Bool} {directories : List Text} {name : Text}
    (hdirectories : ∀ directory ∈ directories, P directory) (hname : P name)
    {groups : List (List Text)}
    (h : directories.mapM (fun directory => do
      return (← matchesIn d only directory name).map (Path.join directory)) = .ok groups) :
    ∀ path ∈ groups.flatten, P path := by
  intro path hpath
  obtain ⟨group, hgroup, hpath⟩ := List.mem_flatten.1 hpath
  obtain ⟨directory, hdirectory, hmatches⟩ := exists_of_mem_mapM_eq_ok h hgroup
  obtain ⟨names, hnames, hmatches⟩ := exists_of_bind_eq_ok hmatches
  obtain rfl : names.map (Path.join directory) = group := Except.ok.inj hmatches
  obtain ⟨rest, hrest, rfl⟩ := List.mem_map.1 hpath
  exact hP.join (hdirectories directory hdirectory)
    (forall_mem_matchesIn hP hd hname hnames rest hrest)

theorem forall_mem_paths {only : Bool} {pattern : Text} (hpattern : P pattern) {found : List Text}
    (h : paths d only pattern = .ok found) : ∀ path ∈ found, P path := by
  induction only, pattern using paths.induct d generalizing found with
  | case1 only pattern hplain =>
    rw [paths, if_pos hplain] at h
    obtain rfl := Except.ok.inj h
    split <;> simp [hpattern]
  | case2 only pattern directory hwild hshorter ih =>
    rw [paths, if_neg hwild, if_pos hshorter] at h
    obtain ⟨directories, hdirectories, h⟩ := exists_of_bind_eq_ok h
    obtain ⟨groups, hgroups, h⟩ := exists_of_bind_eq_ok h
    obtain rfl := Except.ok.inj h
    exact forall_mem_matches hP hd (ih (hP.parent hpattern) hdirectories)
      (hP.front_and_lastName hpattern).2 hgroups
  | case3 only pattern directory hwild hshorter =>
    rw [paths, if_neg hwild, if_neg hshorter] at h
    obtain ⟨directories, hdirectories, h⟩ := exists_of_bind_eq_ok h
    obtain rfl : [directory] = directories := Except.ok.inj hdirectories
    obtain ⟨groups, hgroups, h⟩ := exists_of_bind_eq_ok h
    obtain rfl := Except.ok.inj h
    exact forall_mem_matches hP hd (List.forall_mem_singleton.2 (hP.parent hpattern))
      (hP.front_and_lastName hpattern).2 hgroups

theorem forall_mem_expand {pattern : Text} (hpattern : P pattern) {found : List Text}
    (h : expand d pattern = .ok found) : ∀ path ∈ found, P path := by
  unfold expand at h
  obtain ⟨paths, hpaths, h⟩ := exists_of_bind_eq_ok h
  have hall := forall_mem_paths hP hd hpattern hpaths
  split at h
  · obtain rfl := Except.ok.inj h
    split
    · exact (List.forall_mem_cons.1 hall).2
    · exact hall
  · obtain rfl := Except.ok.inj h
    exact hall

end Wildcard

/-- The text of an argument. -/
def RootArgument.text : RootArgument → Text
  | given path => path
  | pattern text => text
  | literal text => text

/-- The roots of an argument have a property if the argument and the names of the tree have it. -/
theorem RootArgument.forall_mem_resolve {P : Text → Prop} (hP : Path.Piecewise P) {d : Disk}
    (hd : ∀ name ∈ d.root.names, P name) {argument : RootArgument} (hargument : P argument.text)
    {roots : List Text} {notes : List Event} (h : argument.resolve d = .ok (roots, notes)) :
    ∀ root ∈ roots, P root := by
  have hself : ∀ {events : List Event}, Except.ok ([Path.plain argument.text], events) =
      (.ok (roots, notes) : Except Fault _) → ∀ root ∈ roots, P root := by
    intro events h
    obtain ⟨rfl, -⟩ := Prod.mk.inj (Except.ok.inj h)
    exact List.forall_mem_singleton.2 (hP.plain hargument)
  cases argument with
  | given path =>
    obtain ⟨rfl, -⟩ := Prod.mk.inj (Except.ok.inj h)
    exact List.forall_mem_singleton.2 hargument
  | literal text => exact hself h
  | pattern text =>
    rw [resolve] at h
    split at h
    · obtain ⟨found, hfound, h⟩ := exists_of_bind_eq_ok h
      have hall := Wildcard.forall_mem_expand hP hd hargument hfound
      split at h
      · exact hself h
      · obtain ⟨rfl, -⟩ := Prod.mk.inj (Except.ok.inj h)
        intro root hroot
        obtain ⟨path, hpath, rfl⟩ := List.mem_map.1 hroot
        exact hP.plain (hall path (List.mem_mergeSort.1 hpath))
    · exact hself h

end TreeSieve
