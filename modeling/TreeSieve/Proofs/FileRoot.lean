import TreeSieve.Proofs.Placement
import TreeSieve.Proofs.Polarity
import TreeSieve.Proofs.Route

/-!
# Files as roots

A root that is a file is judged without a listing: its directory, its name and its absolute form are
all read off the path. Below a directory without a rule file this gives the verdict that the walk of
the directory gives (`Walker.results_join`), because a name behind a path is split off again
(`Path.lastName_join`, `Path.IsForm.parent_join`) and the absolute form of the path of an entry is
the entry's name behind the absolute form of the directory (`Disk.absolute_join`).
-/

namespace TreeSieve

open TreeSieve.Sym

theorem Text.joinWith_concat {sep : Sym} {ts : List Text} (hne : ts ≠ []) (t : Text) :
    joinWith [sep] (ts ++ [t]) = joinWith [sep] ts ++ sep :: t := by
  induction ts with
  | nil => exact absurd rfl hne
  | cons u us ih =>
    cases us with
    | nil => simp [joinWith, List.intercalate]
    | cons v us =>
      have hsplit : ∀ rest : List Text, joinWith [sep] (u :: v :: rest) =
          u ++ sep :: joinWith [sep] (v :: rest) := fun rest => by
        simp [joinWith, List.intercalate]
      rw [List.cons_append, List.cons_append, hsplit, ← List.cons_append,
        ih (List.cons_ne_nil v us), hsplit, List.append_assoc, List.cons_append]

namespace Path

/-! ## A name behind a path -/

section Join

variable {name : Text} (hname : IsName name)

include hname

/-- A name is joined to a path with slashes in front, or with nothing in front at all. -/
theorem exists_join_eq (p : Text) : ∃ front, join p name = front ++ name ∧
    (front = [] ∨ front.getLast? = some slash) := by
  rw [join_isName hname]
  split
  · next h => exact ⟨p, rfl, h⟩
  · exact ⟨p ++ [slash], by simp, Or.inr (by simp)⟩

/-- A name behind slashes is what follows the last one. -/
theorem reverse_split {front : Text} (hfront : front = [] ∨ front.getLast? = some slash) :
    (front ++ name).reverse.takeWhile (· ≠ slash) = name.reverse ∧
      (front ++ name).reverse.dropWhile (· ≠ slash) = front.reverse := by
  have hslash : ∀ c ∈ name.reverse, decide (c ≠ slash) = true := fun c hc => by
    simpa using fun h : c = slash => hname.2.2.2.1 (h ▸ List.mem_reverse.1 hc)
  rw [List.reverse_append, List.takeWhile_append_of_pos hslash,
    List.dropWhile_append_of_pos hslash]
  rcases hfront with rfl | hlast
  · simp
  · obtain ⟨q, rfl⟩ := List.getLast?_eq_some_iff.1 hlast
    simp

theorem lastName_join (p : Text) : lastName (join p name) = name := by
  obtain ⟨front, hjoin, hfront⟩ := exists_join_eq hname p
  rw [lastName, hjoin, (reverse_split hname hfront).1, List.reverse_reverse]

theorem isHidden_join (p : Text) : isHidden (join p name) = isHiddenName name := by
  rw [isHidden, lastName_join hname]

/-- What comes before the name is the path, except for `//`. -/
theorem IsForm.parent_join {p : Text} (h : IsForm p) (hp : p ≠ [slash, slash]) :
    parent (Path.join p name) = p := by
  rw [parent, join_isName hname]
  by_cases hlast : p.getLast? = some slash
  · rw [if_pos (Or.inr hlast), (reverse_split hname (Or.inr hlast)).2,
      (h.eq_of_slash hlast).resolve_right hp]
    rfl
  · have hne := h.ne_nil
    have htrim : Text.dropEndWhile (· = slash) (p ++ [slash]) = p := by
      have hsame := trimmed_of_getLast? hlast
      rw [trimmed, Text.dropEndWhile] at hsame
      simpa [Text.dropEndWhile] using hsame
    have hjoin : p ++ slash :: name = (p ++ [slash]) ++ name := by simp
    rw [if_neg (by tauto), hjoin, (reverse_split hname (Or.inr (by simp))).2, List.reverse_reverse]
    simp only [htrim]

/-! ## The absolute form of a path with a name behind it -/

theorem climb_concat (passed ns : List Text) :
    climb passed (ns ++ [name]) = climb passed ns ++ [name] := by
  fun_induction climb passed ns with
  | case1 passed =>
    rw [List.nil_append, climb, if_neg hname.2.2.1, climb, List.reverse_cons]
  | case2 passed rest ih =>
    rw [List.cons_append, climb, if_pos rfl, ih]
  | case3 passed first rest hfirst ih =>
    rw [List.cons_append, climb, if_neg hfirst, ih]

/-- One more name in an absolute path is joined to it. -/
theorem ofNames_concat {front : Text} (hfront : front = [slash] ∨ front = [slash, slash])
    {ns : List Text} (hns : ∀ n ∈ ns, n ≠ [] ∧ slash ∉ n) :
    ofNames front (ns ++ [name]) = join (ofNames front ns) name := by
  have hfull : ∀ ts, ofNames front ts = front ++ Text.joinWith [slash] ts := fun ts => by
    rcases hfront with rfl | rfl <;> rfl
  rw [hfull, hfull, join_isName hname]
  by_cases hne : ns = []
  · have hlast : (front ++ Text.joinWith [slash] []).getLast? = some slash := by
      rcases hfront with rfl | rfl <;> rfl
    rw [hne, if_pos (Or.inr hlast)]
    simp [Text.joinWith, List.intercalate]
  · have hnames : ∀ n ∈ ns, n ≠ [] := fun n hn => (hns n hn).1
    have hjoin := joinWith_ne_nil hne hnames
    rw [if_neg, Text.joinWith_concat hne, List.append_assoc]
    rw [List.getLast?_append_of_ne_nil _ hjoin, getLast?_joinWith hne hnames]
    rintro (hnil | hslash)
    · exact hjoin (List.append_eq_nil_iff.1 hnil).2
    · exact (hns _ (List.getLast_mem hne)).2 (List.mem_of_getLast? hslash)

variable {workingDirectory : Text} (hwd : isAbsolute workingDirectory = true)

include hwd

omit hname in
/-- Relative paths are joined to an absolute one with slashes in front. -/
theorem exists_join_of_relative : ∃ front, front.getLast? = some slash ∧
    ∀ p, isAbsolute p = false → join workingDirectory p = front ++ p := by
  have hne : workingDirectory ≠ [] := fun hnil => by
    rw [hnil] at hwd
    cases hwd
  by_cases hlast : workingDirectory.getLast? = some slash
  · refine ⟨workingDirectory, hlast, fun p hp => ?_⟩
    rw [join, hp, if_neg Bool.false_ne_true, if_pos (Or.inr hlast)]
  · refine ⟨workingDirectory ++ [slash], by simp, fun p hp => ?_⟩
    rw [join, hp, if_neg Bool.false_ne_true, if_neg (by tauto), List.append_assoc,
      List.singleton_append]

theorem join_join (p : Text) : join workingDirectory (join p name) =
    join (join workingDirectory p) name := by
  by_cases hp : isAbsolute p = true
  · have hself : ∀ q, isAbsolute q = true → join workingDirectory q = q := fun q hq => by
      rw [join, if_pos hq]
    rw [hself p hp, hself _ (by rwa [isAbsolute_join hname])]
  · rw [Bool.not_eq_true] at hp
    obtain ⟨front, hlast, hrelative⟩ := exists_join_of_relative hwd
    rw [hrelative p hp, hrelative _ (by rwa [isAbsolute_join hname]), join_isName hname,
      join_isName hname]
    by_cases hnil : p = []
    · rw [hnil, if_pos (Or.inl rfl), List.append_nil, if_pos (Or.inr hlast), List.nil_append]
    · rw [List.getLast?_append_of_ne_nil _ hnil]
      simp only [hnil, List.append_eq_nil_iff, and_false, false_or]
      split <;> rw [List.append_assoc]

/-- The absolute form of the path of an entry. -/
theorem absolute_join (p : Text) :
    absolute workingDirectory (join p name) = join (absolute workingDirectory p) name := by
  have habs := isAbsolute_join_of_isAbsolute hwd p
  have hfront : anchor (join workingDirectory p) ≠ [] := fun hnil => by
    rw [(anchor_eq_nil_iff _).1 hnil] at habs
    cases habs
  rw [absolute, join_join hname hwd, anchor_join hname, names_join hname, climb_concat hname,
    ofNames_concat hname ((anchor_eq _).resolve_left hfront), absolute]
  intro n hn
  obtain ⟨hne, -, hslash⟩ := isName_of_mem_names ((mem_climb hn).resolve_left List.not_mem_nil)
  exact ⟨hne, hslash⟩

end Join

end Path

/-! ## The absolute form of a directory -/

namespace Disk

variable {d : Disk}

theorem absolute_join (d : Disk) {name : Text} (hname : Path.IsName name) (p : Text) :
    d.absolute (Path.join p name) = Path.join (d.absolute p) name :=
  Path.absolute_join hname d.isAbsolute_workingPath p

/-- The steps of a relative path come behind those of the path that it is joined to. -/
theorem steps_join_of_relative (p : Text) {t : Text} (hne : t ≠ [])
    (ht : Path.isAbsolute t = false) :
    steps (Path.join p t) = (Text.pieces slash p).filter (· ≠ []) ++ steps t := by
  have hlast : (Path.join p t).getLast? = t.getLast? := by
    rw [Path.join, ht, if_neg Bool.false_ne_true]
    split
    · exact List.getLast?_append_of_ne_nil _ hne
    · rw [List.getLast?_append_of_ne_nil _ (List.cons_ne_nil _ _),
        List.getLast?_cons_of_ne_nil hne]
  have hpieces : (Text.pieces slash (Path.join p t)).filter (· ≠ []) =
      (Text.pieces slash p).filter (· ≠ []) ++ (Text.pieces slash t).filter (· ≠ []) := by
    rw [Path.join, ht, if_neg Bool.false_ne_true]
    split
    · next h =>
      rcases h with rfl | hlast
      · rfl
      · obtain ⟨q, rfl⟩ := List.getLast?_eq_some_iff.1 hlast
        rw [List.append_assoc, List.singleton_append, Text.pieces_append_cons,
          Text.pieces_append_cons, List.filter_append, List.filter_append]
        simp [Text.pieces]
    · rw [Text.pieces_append_cons, List.filter_append]
  rw [steps, steps, hlast, hpieces]
  split
  · exact List.append_assoc ..
  · rfl

/-- What is at a relative path is followed to from where the path in front begins. -/
theorem find_join_of_relative (sought : Sought) {p t : Text} (hnul : nul ∉ p) (hp : p ≠ [])
    (hne : t ≠ []) (ht : Path.isAbsolute t = false) :
    d.find sought (Path.join p t) = if nul ∈ t then .error .embeddedNul
      else d.follow sought maxLinks (start p d.workingDirectory) (Path.names p ++ steps t) := by
  have hmem : nul ∈ Path.join p t ↔ nul ∈ t := by
    rw [Path.join, ht, if_neg Bool.false_ne_true]
    split <;> simp [hnul, show nul ≠ slash by decide]
  have habs : Path.isAbsolute (Path.join p t) = Path.isAbsolute p ∧ Path.join p t ≠ [] := by
    obtain ⟨c, q, rfl⟩ := List.exists_cons_of_ne_nil hp
    rw [Path.join, ht, if_neg Bool.false_ne_true]
    split <;> exact ⟨rfl, List.cons_ne_nil _ _⟩
  rw [find, start, habs.1, ← start, if_neg habs.2, steps_join_of_relative p hne ht,
    Path.names_eq_filter, follow_filter_here _ _ _ _ _ (steps_ne_nil hne ht)]
  simp only [hmem]

section Directory

variable {p : Text} {l : Location} {entries : List (Text × Node)}
  (hget : d.root.get? l = some (.directory entries))

include hget

/-- One can stay in a directory. -/
theorem locate_iff_follow_here (hnul : nul ∉ p) (hp : p ≠ []) : d.locate p = .ok l ↔
    d.follow .target maxLinks (start p d.workingDirectory) (Path.names p ++ [Path.here]) =
      .ok l := by
  obtain ⟨left, hleft⟩ := follow_append d maxLinks (start p d.workingDirectory)
    ((Text.pieces slash p).filter (· ≠ []))
  rw [locate, find, if_neg hnul, if_neg hp, Path.names_eq_filter,
    follow_filter_here _ _ _ _ _ (List.cons_ne_nil _ _)]
  constructor
  · intro h
    rw [hleft, follow_names h, Except.bind, follow, hget]
    simp
  · intro h
    rw [steps]
    split
    · exact h
    · rw [hleft] at h
      cases hs : d.follow .target maxLinks (start p d.workingDirectory)
          ((Text.pieces slash p).filter (· ≠ [])) with
      | error e =>
        rw [hs] at h
        cases h
      | ok m =>
        rw [hs, Except.bind, follow] at h
        split at h
        · simpa using h
        · cases h

variable (hd : d.WellFormed) (hl : d.locate p = .ok l) (habove : Path.above ∉ Path.names p)

include hd hl habove

theorem locate_absolute : d.locate (d.absolute p) = .ok l := by
  obtain ⟨hnul, hp, -⟩ := locate_eq_ok hl
  obtain ⟨hnulAbsolute, hfollow⟩ := follow_absolute .target hd hl habove
  rw [locate_iff_follow_here hget hnulAbsolute (d.isForm_absolute p).ne_nil, hfollow]
  exact (locate_iff_follow_here hget hnul hp).1 hl

theorem entries_absolute : d.entries (d.absolute p) = d.entries p := by
  rw [entries_eq, entries_eq, locate_absolute hget hd hl habove, hl]

/-- Below a directory, a path leads to a file if it does so below the absolute form. -/
theorem isFile_join_absolute (t : Text) :
    d.isFile (Path.join (d.absolute p) t) = d.isFile (Path.join p t) := by
  obtain ⟨hnul, hp, -⟩ := locate_eq_ok hl
  obtain ⟨hnulAbsolute, hfollow⟩ := follow_absolute .target hd hl habove
  have hlocate := locate_absolute hget hd hl habove
  obtain ⟨-, hne, -⟩ := locate_eq_ok hlocate
  by_cases hnil : t = []
  · rw [hnil, isFile_join_nil hlocate hget, isFile_join_nil hl hget]
  by_cases ht : Path.isAbsolute t = true
  · rw [Path.join, if_pos ht, Path.join, if_pos ht]
  · rw [Bool.not_eq_true] at ht
    rw [isFile, isFile, node?, node?, locate, locate,
      find_join_of_relative .target hnulAbsolute hne hnil ht,
      find_join_of_relative .target hnul hp hnil ht, hfollow]

/-- What a listing of the absolute form calls a directory is one. -/
theorem isDirectory_join_of_entry {child : Text × Node} (hchild : child ∈ entries) {follow : Bool}
    (h : d.entryIsDirectory (d.absolute p) follow child = true) :
    d.isDirectory (Path.join p child.1) = true := by
  obtain ⟨name, node⟩ := child
  have hname := (hd.entries hget).2 _ hchild
  cases node with
  | directory below =>
    have hlook := Node.lookup_of_mem (hd.entries hget).1 hchild
    rw [isDirectory, node?, locate_join hname hl hget hlook rfl]
    simp [Node.get?_of_mem hget (hd.entries hget).1 hchild, Node.isDirectory]
  | link target =>
    have hfind : d.locate (Path.join (d.absolute p) name) = d.locate (Path.join p name) :=
      find_below_absolute .target hd hl habove (List.forall_mem_singleton.2 hname)
        (List.cons_ne_nil _ _)
    have hkind := (Bool.and_eq_true_iff.1 h).2
    rwa [isDirectory, node?, hfind] at hkind
  | file content => cases h
  | device kind => cases h

end Directory

end Disk

/-! ## The verdict on a file -/

namespace Context

variable {o : Options} {d : Disk} (hd : d.WellFormed)

include hd

/-- An entry that a directory reports is reported by the walk of the directory, and no other one
is. -/
theorem reported_mem_results_iff {into : Standing → Bool} (levels : Nat) {c : Context}
    {rules : List Rule} {children : List Entry} (henter : c.enter o d = .ok (rules, children))
    {e : Entry} (he : e ∈ children) :
    reported e ∈ c.results o d into (levels + 1) ↔ c.reports o rules e = true := by
  obtain ⟨own, -, -, hscan⟩ := enter_eq_ok henter
  rw [results_of_ok levels henter, List.mem_append]
  constructor
  · rintro (hown | hbelow)
    · obtain ⟨e', he', heq⟩ := List.mem_map.1 hown
      obtain ⟨hmem, hreports⟩ := List.mem_filter.1 he'
      have hnames := congrArg (fun r => Path.names r.path) heq
      simp only [names_reported hd hscan hmem, names_reported hd hscan he] at hnames
      have hname : e'.name = e.name := by simpa using hnames
      rwa [← List.inj_on_of_nodup_map (Disk.nodup_names_scan hd hscan) hmem he hname]
    · obtain ⟨c', hc', hr⟩ := List.mem_flatMap.1 hbelow
      exact absurd rfl (disjoint_own_below hd hscan levels he hc' hr)
  · exact fun h => Or.inl (List.mem_map_of_mem (List.mem_filter.2 ⟨he, h⟩))

section Root

variable {directory : Text} {entries : List (Text × Node)}
  (hentries : d.entries directory = .ok entries) (habove : Path.above ∉ Path.names directory)

include hentries habove

/-- A root without a rule file has the rules of the patterns. -/
theorem exists_enter_root
    (hrules : ∀ file, o.ruleFileName = some file → d.isFile (Path.join directory file) = false) :
    ∃ children, (root o d directory).enter o d = .ok (
        (RuleStack.declared (d.absolute directory) o.patterns).reverse, children) ∧
      ∀ child ∈ entries,
        d.entryOf (d.absolute directory) directory o.followLinks child ∈ children := by
  obtain ⟨l, hl, hget⟩ := Disk.entries_eq_ok hentries
  have hown : (root o d directory).ownRules o d = .ok [] := by
    rw [ownRules, Place.ownRules]
    split
    · rfl
    · next file hfile =>
      have hno : d.isFile (Path.join (d.absolute directory) file) = false := by
        rw [Disk.isFile_join_absolute hget hd hl habove, hrules file hfile]
      simp only [root, Place.root, Standing.isExcluded, hno]
      rfl
  have hscan := d.scan_eq (d.absolute directory) directory o.followLinks
  rw [Disk.entries_absolute hget hd hl habove, hentries] at hscan
  have hplace : (root o d directory).place.scan o d = _ := hscan
  rw [enter, hown, hplace]
  refine ⟨_, rfl, fun child hchild => ?_⟩
  exact (List.mergeSort_perm _ _).mem_iff.2 (List.mem_map_of_mem hchild)

/-- **The path of a file is enough to judge it** as the directory judges its entry. -/
theorem singleFile_join (hfiles : o.output = .files)
    (hfront : d.absolute directory ≠ [slash, slash]) {child : Text × Node}
    (hchild : child ∈ entries)
    (hfile : d.isDirectory (Path.join directory child.1) = false) :
    let e := d.entryOf (d.absolute directory) directory o.followLinks child
    Walk.singleFile o d e.path =
      if (root o d directory).reports o
          (RuleStack.declared (d.absolute directory) o.patterns).reverse e then [result e]
      else [] := by
  intro e
  obtain ⟨l, hl, hget⟩ := Disk.entries_eq_ok hentries
  have hname : Path.IsName child.1 := (hd.entries hget).2 _ hchild
  have hform := d.isForm_absolute directory
  have hkind : e.isDirectory = false := by
    rw [Bool.eq_false_iff]
    intro h
    rw [Disk.isDirectory_join_of_entry hget hd hl habove hchild h] at hfile
    cases hfile
  have hcandidate : (root o d directory).place.candidate e =
      d.absolute (Path.join directory child.1) := by
    rw [Place.candidate, hkind, if_neg Bool.false_ne_true, d.absolute_join hname]
    exact (hform.join_eq hname hfront).symm
  have hparent : Path.parent (d.absolute (Path.join directory child.1)) = d.absolute directory := by
    rw [d.absolute_join hname, hform.parent_join hname hfront]
  have hsingle : Walk.singleFile o d e.path = _ :=
    Walk.singleFile_withPatterns o d (Path.join directory child.1) o.patterns
  have hreports : (root o d directory).reports o
      (RuleStack.declared (d.absolute directory) o.patterns).reverse e =
        (!o.skipsRuleFile child.1 && o.selectsFile (Path.isHiddenName child.1) &&
          ((Standing.included.judge (RuleStack.declared (d.absolute directory) o.patterns).reverse
            (d.absolute (Path.join directory child.1)) false).isExcluded == o.ignored)) := by
    rw [reports, Options.isCandidate, judge, hkind, hcandidate]
    rfl
  rw [hsingle, Path.lastName_join hname, Path.isHidden_join hname, hparent, hfiles, hreports]
  cases o.skipsRuleFile child.1 <;> cases o.selectsFile (Path.isHiddenName child.1) <;>
    cases (Standing.included.judge (RuleStack.declared (d.absolute directory) o.patterns).reverse
      (d.absolute (Path.join directory child.1)) false).isExcluded <;> cases o.ignored <;> rfl

end Root

end Context

/-! ## Walks of a file -/

namespace Walker

section Files

variable {w : Walker} (hfiles : w.options.output = .files) {d : Disk} (hd : d.WellFormed)

include hfiles hd

/-- What the walk of a directory finds among its own entries, however errors are treated. -/
theorem reported_mem_results_iff {root : Text} (hroot : d.isDirectory root = true)
    {rules : List Rule} {children : List Entry}
    (henter : (Context.root w.options d root).enter w.options d = .ok (rules, children))
    {e : Entry} (he : e ∈ children) : Context.reported e ∈ w.results d root ↔
      (Context.root w.options d root).reports w.options rules e = true := by
  constructor
  · intro hr
    have hall := mem_results_of_isDirectory hd hroot hr
    rw [hfiles] at hall
    exact (Context.reported_mem_results_iff hd d.root.size henter he).1 hall
  -- The own entries are reported before anything can fail.
  · intro hreports
    have hown : ∀ event ∈ (children.filter
        ((Context.root w.options d root).reports w.options rules)).map Context.result,
        event.isFinal = false := by
      intro event hevent
      obtain ⟨_, -, rfl⟩ := List.mem_map.1 hevent
      rfl
    rw [results, walk_eq_untilFinal w hd (Nat.lt_succ_self _), Walk.listing,
      if_pos (Disk.has_of_isDirectory hroot), if_pos hroot, Context.tree, Options.listing, hfiles,
      Context.walk, henter]
    simp only
    rw [untilFinal_append hown, List.filterMap_append]
    exact List.mem_append_left _ (List.mem_filterMap.2 ⟨Context.result e,
      List.mem_map_of_mem (List.mem_filter.2 ⟨he, hreports⟩), rfl⟩)

omit hfiles in
/-- The walk of a root that exists and is no directory. -/
theorem results_eq_singleFile {root : Text} (hhas : d.has root = true)
    (hroot : d.isDirectory root = false) : w.results d root =
      (Walk.singleFile w.options d root).filterMap Event.result? := by
  have hown : ∀ event ∈ Walk.singleFile w.options d root, event.isFinal = false := by
    intro event hevent
    obtain ⟨r, rfl⟩ := Walk.mem_singleFile hevent
    rfl
  have hall := untilFinal_append hown []
  rw [List.append_nil] at hall
  rw [results, walk_eq_untilFinal w hd (Nat.lt_succ_self _), Walk.listing, if_pos hhas, hroot,
    if_neg Bool.false_ne_true, hall, untilFinal, List.append_nil]

/-- **A file as a root is judged as in its directory.** If the directory has no rule file, and
its absolute form is not `//`, the walk of the path of one of its files finds this file if the walk
of the directory finds it, and nothing else. -/
theorem results_join {directory : Text} {entries : List (Text × Node)}
    (hentries : d.entries directory = .ok entries) (habove : Path.above ∉ Path.names directory)
    (hfront : d.absolute directory ≠ [slash, slash])
    (hrules : ∀ file, w.options.ruleFileName = some file →
      d.isFile (Path.join directory file) = false)
    {name : Text} (hname : name ∈ entries.map (·.1))
    (hhas : d.has (Path.join directory name) = true)
    (hfile : d.isDirectory (Path.join directory name) = false) :
    w.results d (Path.join directory name) =
      if ⟨Path.plain (Path.join directory name), false⟩ ∈ w.results d directory then
        [⟨Path.plain (Path.join directory name), false⟩]
      else [] := by
  obtain ⟨child, hchild, rfl⟩ := List.mem_map.1 hname
  obtain ⟨l, hl, hget⟩ := Disk.entries_eq_ok hentries
  have hroot : d.isDirectory directory = true := by
    rw [Disk.isDirectory, Disk.node?, hl]
    simp [hget, Node.isDirectory]
  obtain ⟨children, henter, hchildren⟩ :=
    Context.exists_enter_root (o := w.options) hd hentries habove hrules
  have hreported := reported_mem_results_iff hfiles hd hroot henter (hchildren child hchild)
  have hsingle : Walk.singleFile w.options d (Path.join directory child.1) = _ :=
    Context.singleFile_join hd hentries habove hfiles hfront hchild hfile
  rw [results_eq_singleFile hd hhas hfile, hsingle]
  by_cases hreports : (Context.root w.options d directory).reports w.options
      (RuleStack.declared (d.absolute directory) w.options.patterns).reverse
      (d.entryOf (d.absolute directory) directory w.options.followLinks child) = true
  · rw [if_pos hreports]
    exact (if_pos (hreported.2 hreports)).symm
  · rw [if_neg hreports]
    exact (if_neg fun h => hreports (hreported.1 h)).symm

end Files

/-- The pattern is declared in `/x/a`, however this is written, and excludes `f` there but not
`g`. -/
theorem results_join_pattern :
    let w : Walker := { options := { ruleFileName := some "r", patterns := ["/f"] } }
    let d : Disk := ⟨.directory [("x", .directory [("a", .directory [("f", .file []),
      ("g", .file [])])])], ["x"], []⟩
    w.results d "./a/./f" = [] ∧ w.results d "./a/./g" = [⟨"a/g", false⟩] := by
  intro w d
  have hentries : d.entries "./a/." = .ok [("f", .file []), ("g", .file [])] := by cbv
  have hrules : ∀ file, w.options.ruleFileName = some file →
      d.isFile (Path.join "./a/." file) = false := by
    rintro _ ⟨⟩
    cbv
  have hroot : ∀ name ∈ [("f", Node.file []), ("g", .file [])].map (·.1),
      d.has (Path.join "./a/." name) = true → d.isDirectory (Path.join "./a/." name) = false →
        w.results d (Path.join "./a/." name) = _ := fun name =>
    results_join (w := w) rfl (d := d) (by decide) hentries (by decide) (by decide) hrules
  exact ⟨(hroot "f" (by decide) (by cbv) (by cbv)).trans (by cbv),
    (hroot "g" (by decide) (by cbv) (by cbv)).trans (by cbv)⟩

end Walker

end TreeSieve
