import TreeSieve.Proofs.Context

/-!
# The paths that are reported

Whatever is reported below a directory has a path that goes on from the path of the directory, and
it goes on with the name of the entry in which it lies. So no file is reported twice in a walk
(`Context.nodup_results`), and the directories with reported files are exactly those on the way
from a directory to the files (`Context.mem_live_iff`).
-/

namespace TreeSieve

namespace Path

/-- One path leads to somewhere below another one. -/
def IsAbove (p q : Text) : Prop := names p <+: names q ∧ names p ≠ names q

/-- The printed paths of the directories on the way from a directory to a file, both included. -/
def between (base file : Text) : List Text :=
  ((names file).dropLast.inits.filter fun ns => (names base).length ≤ ns.length).map
    (ofNames (anchor base))

theorem mem_between {base file p : Text} : p ∈ between base file ↔
    ∃ ns, ns <+: (names file).dropLast ∧ (names base).length ≤ ns.length ∧
      p = ofNames (anchor base) ns := by
  simp only [between, List.mem_map, List.mem_filter, List.mem_inits, decide_eq_true_eq]
  constructor
  · rintro ⟨ns, ⟨hpre, hlen⟩, rfl⟩
    exact ⟨ns, hpre, hlen, rfl⟩
  · rintro ⟨ns, hpre, hlen, rfl⟩
    exact ⟨ns, ⟨hpre, hlen⟩, rfl⟩

/-- The only directory on the way to an own file is the directory itself. -/
theorem mem_between_own {base file name p : Text} (h : names file = names base ++ [name]) :
    p ∈ between base file ↔ p = plain base := by
  rw [mem_between, h, List.dropLast_concat]
  constructor
  · rintro ⟨ns, hpre, hlen, rfl⟩
    rw [hpre.eq_of_length_le hlen, plain]
  · rintro rfl
    exact ⟨names base, List.prefix_rfl, Nat.le_refl _, rfl⟩

theorem plain_mem_between {base file : Text} {rest : List Text}
    (h : names file = names base ++ rest) (hrest : rest ≠ []) :
    plain base ∈ between base file := by
  rw [mem_between, h, List.dropLast_append_of_ne_nil hrest]
  exact ⟨names base, List.prefix_append _ _, Nat.le_refl _, rfl⟩

/-- The way to a file in a subdirectory goes through the subdirectory. -/
theorem mem_between_join {base file name p : Text} {rest : List Text} (hname : IsName name)
    (h : names file = names (join base name) ++ rest) (hrest : rest ≠ []) :
    p ∈ between base file ↔ p = plain base ∨ p ∈ between (join base name) file := by
  have hfile : (names file).dropLast = names base ++ ([name] ++ rest.dropLast) := by
    rw [h, List.dropLast_append_of_ne_nil hrest, names_join hname, List.append_assoc]
  rw [mem_between, mem_between, anchor_join hname, names_join hname, hfile]
  constructor
  · rintro ⟨ns, hpre, hlen, rfl⟩
    rcases Nat.lt_or_eq_of_le hlen with hlt | heq
    · refine Or.inr ⟨ns, hpre, ?_, rfl⟩
      rw [List.length_append]
      exact hlt
    · have hns : ns = names base :=
        (List.prefix_of_prefix_length_le hpre (List.prefix_append _ _) heq.ge).eq_of_length heq.symm
      exact Or.inl (by rw [hns, plain])
  · rintro (rfl | ⟨ns, hpre, hlen, rfl⟩)
    · exact ⟨names base, List.prefix_append _ _, Nat.le_refl _, rfl⟩
    · refine ⟨ns, hpre, ?_, rfl⟩
      rw [List.length_append] at hlen
      omega

theorem not_prefix_of_ne {ns rest rest' : List Text} {n m : Text} (h : n ≠ m) :
    ¬(ns ++ [n] ++ rest) <+: (ns ++ [m] ++ rest') := by
  rw [List.append_assoc, List.append_assoc, List.prefix_append_right_inj]
  intro hpre
  exact h (List.cons_prefix_cons.1 hpre).1

end Path

namespace Context

variable {o : Options} {d : Disk} (hd : d.WellFormed) {into : Standing → Bool}

include hd

/-! ## Names -/

/-- The context of a subdirectory has the path of an entry. -/
theorem subcontext?_eq_some {c c' : Context} {rules : List Rule} {children : List Entry}
    (hscan : c.place.scan o d = .ok children) {e : Entry} (he : e ∈ children)
    (h : c.subcontext? o d into rules e = some c') :
    Path.IsName e.name ∧ c'.place.path = Path.join c.place.path e.name := by
  have hname := Disk.isName_of_mem_scan hd hscan he
  obtain ⟨l, entries, node, -, -, -, hpath, -⟩ := Disk.mem_scan hscan he
  rw [subcontext?] at h
  split at h
  · obtain ⟨place, hplace, rfl⟩ := Option.map_eq_some_iff.1 h
    obtain ⟨-, hbelow⟩ := Place.subdirectory?_eq_some hplace
    obtain ⟨hp, -⟩ := Place.below?_eq_some hbelow
    exact ⟨hname, hp.trans hpath⟩
  · cases h

theorem path_of_mem_subcontexts {c c' : Context} {rules : List Rule} {children : List Entry}
    (hscan : c.place.scan o d = .ok children)
    (h : c' ∈ children.filterMap (c.subcontext? o d into rules)) :
    ∃ name, Path.IsName name ∧ c'.place.path = Path.join c.place.path name := by
  obtain ⟨e, he, hsub⟩ := List.mem_filterMap.1 h
  exact ⟨e.name, subcontext?_eq_some hd hscan he hsub⟩

theorem names_reported {c : Context} {children : List Entry}
    (hscan : c.place.scan o d = .ok children) {e : Entry} (he : e ∈ children) :
    Path.names (reported e).path = Path.names c.place.path ++ [e.name] := by
  have hname := Disk.isName_of_mem_scan hd hscan he
  obtain ⟨l, entries, node, -, -, -, hpath, -⟩ := Disk.mem_scan hscan he
  rw [reported, Path.names_plain, hpath, Path.names_join hname]

/-- The path of a reported file goes on from the path of the directory. -/
theorem names_of_mem_results (levels : Nat) {c : Context} :
    ∀ r ∈ c.results o d into levels,
      ∃ rest, Path.names r.path = Path.names c.place.path ++ rest ∧ rest ≠ [] := by
  induction levels generalizing c with
  | zero =>
    intro r hr
    cases hr
  | succ levels ih =>
    intro r hr
    cases henter : c.enter o d with
    | error e =>
      rw [results_of_error levels henter] at hr
      cases hr
    | ok scope =>
      obtain ⟨rules, children⟩ := scope
      obtain ⟨own, -, -, hscan⟩ := enter_eq_ok henter
      rw [results_of_ok levels henter] at hr
      rcases List.mem_append.1 hr with hown | hbelow
      · obtain ⟨e, he, rfl⟩ := List.mem_map.1 hown
        exact ⟨[e.name], names_reported hd hscan (List.mem_of_mem_filter he), by simp⟩
      · obtain ⟨c', hc', hr'⟩ := List.mem_flatMap.1 hbelow
        obtain ⟨name, hname, hpath⟩ := path_of_mem_subcontexts hd hscan hc'
        obtain ⟨rest, hrest, -⟩ := ih r hr'
        refine ⟨name :: rest, ?_, by simp⟩
        rw [hrest, hpath, Path.names_join hname, List.append_assoc]
        rfl

/-- The path of a directory with reported files goes on from the path of the directory. -/
theorem names_of_mem_live (levels : Nat) {c : Context} :
    ∀ p ∈ c.live o d into levels, ∃ rest, Path.names p = Path.names c.place.path ++ rest := by
  induction levels generalizing c with
  | zero =>
    intro p hp
    cases hp
  | succ levels ih =>
    intro p hp
    cases henter : c.enter o d with
    | error e =>
      rw [live_of_error levels henter] at hp
      cases hp
    | ok scope =>
      obtain ⟨rules, children⟩ := scope
      obtain ⟨own, -, -, hscan⟩ := enter_eq_ok henter
      rw [live_of_ok levels henter] at hp
      split at hp
      · rcases List.mem_cons.1 hp with rfl | hbelow
        · exact ⟨[], (List.append_nil _).symm⟩
        · obtain ⟨c', hc', hp'⟩ := List.mem_flatMap.1 hbelow
          obtain ⟨name, hname, hpath⟩ := path_of_mem_subcontexts hd hscan (List.mem_reverse.1 hc')
          obtain ⟨rest, hrest⟩ := ih p hp'
          refine ⟨name :: rest, ?_⟩
          rw [hrest, hpath, Path.names_join hname, List.append_assoc]
          rfl
      · cases hp

/-- Different subdirectories have different names. -/
theorem pairwise_subcontexts {c : Context} {rules : List Rule} {children : List Entry}
    (hscan : c.place.scan o d = .ok children) :
    (children.filterMap (c.subcontext? o d into rules)).Pairwise fun a b =>
      ∃ n m, n ≠ m ∧ Path.names a.place.path = Path.names c.place.path ++ [n] ∧
        Path.names b.place.path = Path.names c.place.path ++ [m] := by
  have hnames : children.Pairwise fun e e' => e.name ≠ e'.name :=
    List.pairwise_map.1 (Disk.nodup_names_scan hd hscan)
  rw [List.pairwise_filterMap]
  apply hnames.imp_of_mem
  intro e e' he he' hne a ha b hb
  obtain ⟨hname, hpath⟩ := subcontext?_eq_some hd hscan he ha
  obtain ⟨hname', hpath'⟩ := subcontext?_eq_some hd hscan he' hb
  refine ⟨e.name, e'.name, hne, ?_, ?_⟩
  · rw [hpath, Path.names_join hname]
  · rw [hpath', Path.names_join hname']

theorem nodup_names_subcontexts {c : Context} {rules : List Rule} {children : List Entry}
    (hscan : c.place.scan o d = .ok children) :
    ((children.filterMap (c.subcontext? o d into rules)).map
      fun c' => Path.names c'.place.path).Nodup := by
  apply List.pairwise_map.2
  apply (pairwise_subcontexts hd hscan).imp
  rintro a b ⟨n, m, hnm, hn, hm⟩ heq
  rw [hn, hm] at heq
  exact hnm (by simpa using heq)

/-! ## Files -/

theorem nodup_own {c : Context} {children : List Entry}
    (hscan : c.place.scan o d = .ok children) (f : Entry → Bool) :
    ((children.filter f).map fun e => Path.names (reported e).path).Nodup := by
  have hnames : children.Pairwise fun e e' => e.name ≠ e'.name :=
    List.pairwise_map.1 (Disk.nodup_names_scan hd hscan)
  apply List.pairwise_map.2
  apply (hnames.filter _).imp_of_mem
  intro e e' he he' hne heq
  rw [names_reported hd hscan (List.mem_of_mem_filter he),
    names_reported hd hscan (List.mem_of_mem_filter he')] at heq
  exact hne (by simpa using heq)

theorem disjoint_own_below {c : Context} {rules : List Rule} {children : List Entry}
    (hscan : c.place.scan o d = .ok children) (levels : Nat) {e : Entry} (he : e ∈ children)
    {c' : Context} (hc' : c' ∈ children.filterMap (c.subcontext? o d into rules)) {r : Result}
    (hr : r ∈ c'.results o d into levels) :
    Path.names r.path ≠ Path.names (reported e).path := by
  obtain ⟨name, hname, hpath⟩ := path_of_mem_subcontexts hd hscan hc'
  obtain ⟨rest, hrest, hne⟩ := names_of_mem_results hd levels r hr
  rw [names_reported hd hscan he, hrest, hpath, Path.names_join hname, List.append_assoc]
  intro heq
  have hlen := congrArg List.length (List.append_cancel_left heq)
  simp only [List.length_append, List.length_singleton] at hlen
  have hpos := List.length_pos_of_ne_nil hne
  omega

/-- **No file is reported twice** in a walk. -/
theorem nodup_results (levels : Nat) (c : Context) :
    ((c.results o d into levels).map fun r => Path.names r.path).Nodup := by
  induction levels generalizing c with
  | zero => exact List.nodup_nil
  | succ levels ih =>
    cases henter : c.enter o d with
    | error e =>
      rw [results_of_error levels henter]
      exact List.nodup_nil
    | ok scope =>
      obtain ⟨rules, children⟩ := scope
      obtain ⟨own, -, -, hscan⟩ := enter_eq_ok henter
      rw [results_of_ok levels henter, List.map_append, List.map_flatMap, List.map_map]
      refine List.Nodup.append (nodup_own hd hscan _) ?_ ?_
      -- Two subdirectories have different names, and all that lies below them has these too.
      · refine List.nodup_flatMap.2 ⟨fun c' _ => ih c', ?_⟩
        apply (pairwise_subcontexts hd hscan).imp
        rintro a b ⟨n, m, hnm, ha, hb⟩
        apply List.disjoint_left.2
        intro x hxa hxb
        obtain ⟨r, hr, rfl⟩ := List.mem_map.1 hxa
        obtain ⟨r', hr', heq⟩ := List.mem_map.1 hxb
        obtain ⟨rest, hrest, -⟩ := names_of_mem_results hd levels r hr
        obtain ⟨rest', hrest', -⟩ := names_of_mem_results hd levels r' hr'
        rw [hrest, hrest', ha, hb] at heq
        exact Path.not_prefix_of_ne hnm.symm ⟨[], by rw [List.append_nil, heq]⟩
      · apply List.disjoint_left.2
        intro x hown hbelow
        obtain ⟨e, he, rfl⟩ := List.mem_map.1 hown
        obtain ⟨c', hc', hx⟩ := List.mem_flatMap.1 hbelow
        obtain ⟨r, hr, heq⟩ := List.mem_map.1 hx
        exact disjoint_own_below hd hscan levels (List.mem_of_mem_filter he) hc' hr heq

/-! ## Directories -/

/-- The directories on the way to the files that a directory holds. -/
theorem between_own {c : Context} {children : List Entry} (hscan : c.place.scan o d = .ok children)
    (f : Entry → Bool) {p : Text} :
    (∃ r ∈ (children.filter f).map reported, p ∈ Path.between c.place.path r.path) ↔
      children.any f = true ∧ p = Path.plain c.place.path := by
  constructor
  · rintro ⟨r, hr, hp⟩
    obtain ⟨e, he, rfl⟩ := List.mem_map.1 hr
    obtain ⟨hmem, hf⟩ := List.mem_filter.1 he
    exact ⟨List.any_eq_true.2 ⟨e, hmem, hf⟩,
      (Path.mem_between_own (names_reported hd hscan hmem)).1 hp⟩
  · rintro ⟨hany, hp⟩
    obtain ⟨e, hmem, hf⟩ := List.any_eq_true.1 hany
    exact ⟨reported e, List.mem_map_of_mem (List.mem_filter.2 ⟨hmem, hf⟩),
      (Path.mem_between_own (names_reported hd hscan hmem)).2 hp⟩

/-- The directories on the way to the files below subdirectories, if this is known of these. -/
theorem between_below {levels : Nat}
    (ih : ∀ (c : Context) {p : Text}, p ∈ (c.live o d into levels).map Path.plain ↔
      ∃ r ∈ c.results o d into levels, p ∈ Path.between c.place.path r.path)
    {c : Context} (rules : List Rule) {children : List Entry}
    (hscan : c.place.scan o d = .ok children) {p : Text} :
    (∃ r ∈ (children.filterMap (c.subcontext? o d into rules)).flatMap (results o d into levels),
        p ∈ Path.between c.place.path r.path) ↔
      ((children.filterMap (c.subcontext? o d into rules)).flatMap (live o d into levels) ≠ [] ∧
        p = Path.plain c.place.path) ∨
      p ∈ ((children.filterMap (c.subcontext? o d into rules)).flatMap
        (live o d into levels)).map Path.plain := by
  -- The way from here to a file is the way from the subdirectory, with this directory before.
  have hbetween : ∀ c' ∈ children.filterMap (c.subcontext? o d into rules),
      ∀ r ∈ c'.results o d into levels, (p ∈ Path.between c.place.path r.path ↔
        p = Path.plain c.place.path ∨ p ∈ Path.between c'.place.path r.path) := by
    intro c' hc' r hr
    obtain ⟨name, hname, hpath⟩ := path_of_mem_subcontexts hd hscan hc'
    obtain ⟨rest, hrest, hne⟩ := names_of_mem_results hd levels r hr
    rw [hpath] at hrest ⊢
    exact Path.mem_between_join hname hrest hne
  constructor
  · rintro ⟨r, hr, hp⟩
    obtain ⟨c', hc', hr⟩ := List.mem_flatMap.1 hr
    rcases (hbetween c' hc' r hr).1 hp with rfl | hp
    · obtain ⟨rest, hrest, hne⟩ := names_of_mem_results hd levels r hr
      have hself := (ih c').2 ⟨r, hr, Path.plain_mem_between hrest hne⟩
      obtain ⟨q, hq, -⟩ := List.mem_map.1 hself
      exact Or.inl ⟨List.ne_nil_of_mem (List.mem_flatMap.2 ⟨c', hc', hq⟩), rfl⟩
    · obtain ⟨q, hq, rfl⟩ := List.mem_map.1 ((ih c').2 ⟨r, hr, hp⟩)
      exact Or.inr (List.mem_map_of_mem (List.mem_flatMap.2 ⟨c', hc', hq⟩))
  · rintro (⟨hne, rfl⟩ | hp)
    · obtain ⟨q, hq⟩ := List.exists_mem_of_ne_nil _ hne
      obtain ⟨c', hc', hq⟩ := List.mem_flatMap.1 hq
      obtain ⟨r, hr, -⟩ := (ih c').1 (List.mem_map_of_mem hq)
      exact ⟨r, List.mem_flatMap.2 ⟨c', hc', hr⟩, (hbetween c' hc' r hr).2 (Or.inl rfl)⟩
    · obtain ⟨q, hq, rfl⟩ := List.mem_map.1 hp
      obtain ⟨c', hc', hq⟩ := List.mem_flatMap.1 hq
      obtain ⟨r, hr, hp⟩ := (ih c').1 (List.mem_map_of_mem hq)
      exact ⟨r, List.mem_flatMap.2 ⟨c', hc', hr⟩, (hbetween c' hc' r hr).2 (Or.inr hp)⟩

omit hd in
theorem mem_map_self_or_below {α β : Type} {f : α → β} {self : α} {below below' : List α}
    (h : ∀ q, q ∈ below ↔ q ∈ below') {any : Bool} {p : β} :
    p ∈ (if any || !below.isEmpty then self :: below else []).map f ↔
      (any = true ∧ p = f self) ∨ (below' ≠ [] ∧ p = f self) ∨ p ∈ below'.map f := by
  have hmap : p ∈ below'.map f ↔ p ∈ below.map f := by simp only [List.mem_map, h]
  have hempty : below' = [] ↔ below = [] := by simp only [List.eq_nil_iff_forall_not_mem, h]
  rw [hmap, ne_eq, hempty]
  cases below with
  | nil => cases any <;> simp
  | cons q below =>
    rw [if_pos (by simp), List.map_cons, List.mem_cons]
    constructor
    · rintro (hp | hp)
      · exact Or.inr (Or.inl ⟨List.cons_ne_nil q below, hp⟩)
      · exact Or.inr (Or.inr hp)
    · rintro (⟨-, hp⟩ | ⟨-, hp⟩ | hp)
      · exact Or.inl hp
      · exact Or.inl hp
      · exact Or.inr hp

/-- **The directories with reported files** are those on the way to the reported files. -/
theorem mem_live_iff (levels : Nat) (c : Context) {p : Text} :
    p ∈ (c.live o d into levels).map Path.plain ↔
      ∃ r ∈ c.results o d into levels, p ∈ Path.between c.place.path r.path := by
  induction levels generalizing c p with
  | zero => simp [live]
  | succ levels ih =>
    cases henter : c.enter o d with
    | error e =>
      rw [live_of_error levels henter, results_of_error levels henter]
      simp
    | ok scope =>
      obtain ⟨rules, children⟩ := scope
      obtain ⟨own, -, -, hscan⟩ := enter_eq_ok henter
      have hown := between_own hd hscan (c.reports o rules) (p := p)
      have hbelow := between_below hd ih rules hscan (p := p)
      have hreverse : ∀ q, q ∈ (children.filterMap (c.subcontext? o d into rules)).reverse.flatMap
          (live o d into levels) ↔ q ∈ (children.filterMap (c.subcontext? o d into rules)).flatMap
          (live o d into levels) := by
        intro q
        simp only [List.mem_flatMap, List.mem_reverse]
      rw [live_of_ok levels henter, results_of_ok levels henter, mem_map_self_or_below hreverse]
      simp only [List.mem_append, or_and_right, exists_or]
      rw [hown, hbelow]

/-- A directory with reported files comes before those below it. -/
theorem pairwise_live (levels : Nat) (c : Context) :
    (c.live o d into levels).Pairwise fun p q => ¬Path.IsAbove q p := by
  induction levels generalizing c with
  | zero => exact List.Pairwise.nil
  | succ levels ih =>
    cases henter : c.enter o d with
    | error e =>
      rw [live_of_error levels henter]
      exact List.Pairwise.nil
    | ok scope =>
      obtain ⟨rules, children⟩ := scope
      obtain ⟨own, -, -, hscan⟩ := enter_eq_ok henter
      rw [live_of_ok levels henter]
      split
      · refine List.pairwise_cons.2 ⟨?_, List.pairwise_flatMap.2 ⟨fun c' _ => ih c', ?_⟩⟩
        · rintro q hq ⟨hpre, -⟩
          obtain ⟨c', hc', hq⟩ := List.mem_flatMap.1 hq
          obtain ⟨name, hname, hpath⟩ := path_of_mem_subcontexts hd hscan (List.mem_reverse.1 hc')
          obtain ⟨rest, hrest⟩ := names_of_mem_live hd levels q hq
          have hlen := hpre.length_le
          rw [hrest, hpath, Path.names_join hname] at hlen
          simp only [List.length_append, List.length_singleton] at hlen
          omega
        · rw [List.pairwise_reverse]
          apply (pairwise_subcontexts hd hscan).imp
          rintro b a ⟨n, m, hnm, hb, ha⟩ x hx y hy ⟨hpre, -⟩
          obtain ⟨rest, hrest⟩ := names_of_mem_live hd levels x hx
          obtain ⟨rest', hrest'⟩ := names_of_mem_live hd levels y hy
          rw [hrest, hrest', ha, hb] at hpre
          exact Path.not_prefix_of_ne hnm hpre
      · exact List.Pairwise.nil

end Context

end TreeSieve
