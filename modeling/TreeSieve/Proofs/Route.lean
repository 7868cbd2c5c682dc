import TreeSieve.Proofs.Below
import TreeSieve.Proofs.Ending
import TreeSieve.Proofs.Reported

/-!
# How a walk comes to what it reports

`Context.Route o d into c way s` says that the walk of the directory `c` goes on to the directory
`s` through subdirectories with the names `way`. Whatever is reported lies in a directory that is
come to like this (`Context.exists_route_of_mem_results`, `Context.exists_route_of_mem_live`). So
what every step of a route keeps is known of the place of every reported path: its paths go on with
the names of the way (`Route.path_eq`, `Route.absolute_eq`), and the directories on the way are all
different (`Route.exists_way`).
-/

namespace TreeSieve

namespace Context

/-- A walk goes from one directory to another through subdirectories with the given names. -/
inductive Route (o : Options) (d : Disk) (into : Standing → Bool) (c : Context) :
    List Text → Context → Prop
  | here : Route o d into c [] c
  | on {way : List Text} {s s' : Context} {rules : List Rule} {children : List Entry} {e : Entry}
      (h : Route o d into c way s) (henter : s.enter o d = .ok (rules, children))
      (he : e ∈ children) (hsub : s.subcontext? o d into rules e = some s') :
      Route o d into c (way ++ [e.name]) s'

variable {o : Options} {d : Disk} {into : Standing → Bool} {c c' s : Context} {way : List Text}

/-- A route can begin with a step to a subdirectory. -/
theorem Route.cons {rules : List Rule} {children : List Entry} {e : Entry}
    (henter : c.enter o d = .ok (rules, children)) (he : e ∈ children)
    (hsub : c.subcontext? o d into rules e = some c') (h : Route o d into c' way s) :
    Route o d into c (e.name :: way) s := by
  induction h with
  | here => exact Route.here.on henter he hsub
  | on _ henter' he' hsub' ih => exact ih.on henter' he' hsub'

/-! ## What is reported -/

/-- A reported file is an entry of a directory that the walk comes to. -/
theorem exists_route_of_mem_results {levels : Nat} {r : Result}
    (hr : r ∈ c.results o d into levels) :
    ∃ way s rules children, Route o d into c way s ∧ s.enter o d = .ok (rules, children) ∧
      ∃ e ∈ children, s.reports o rules e = true ∧ r = reported e := by
  induction levels generalizing c with
  | zero => cases hr
  | succ levels ih =>
    cases henter : c.enter o d with
    | error e =>
      rw [results_of_error levels henter] at hr
      cases hr
    | ok scope =>
      obtain ⟨rules, children⟩ := scope
      rw [results_of_ok levels henter] at hr
      rcases List.mem_append.1 hr with hown | hbelow
      · obtain ⟨e, he, rfl⟩ := List.mem_map.1 hown
        obtain ⟨hmem, hreports⟩ := List.mem_filter.1 he
        exact ⟨[], c, rules, children, .here, henter, e, hmem, hreports, rfl⟩
      · obtain ⟨c', hc', hr'⟩ := List.mem_flatMap.1 hbelow
        obtain ⟨e, he, hsub⟩ := List.mem_filterMap.1 hc'
        obtain ⟨way, s, rules', children', hroute, hfile⟩ := ih hr'
        exact ⟨_, s, rules', children', hroute.cons henter he hsub, hfile⟩

/-- A directory with reported files is one that the walk comes to. -/
theorem exists_route_of_mem_live {levels : Nat} {p : Text} (hp : p ∈ c.live o d into levels) :
    ∃ way s, Route o d into c way s ∧ p = s.place.path := by
  induction levels generalizing c with
  | zero => cases hp
  | succ levels ih =>
    cases henter : c.enter o d with
    | error e =>
      rw [live_of_error levels henter] at hp
      cases hp
    | ok scope =>
      obtain ⟨rules, children⟩ := scope
      rw [live_of_ok levels henter] at hp
      split at hp
      · rcases List.mem_cons.1 hp with rfl | hbelow
        · exact ⟨[], c, .here, rfl⟩
        · obtain ⟨c', hc', hp'⟩ := List.mem_flatMap.1 hbelow
          obtain ⟨e, he, hsub⟩ := List.mem_filterMap.1 (List.mem_reverse.1 hc')
          obtain ⟨way, s, hroute, hpath⟩ := ih hp'
          exact ⟨_, s, hroute.cons henter he hsub, hpath⟩
      · cases hp

/-! ## What a step keeps -/

/-- The subdirectory of a context is that of its place. -/
theorem subdirectory?_of_subcontext? {rules : List Rule} {e : Entry}
    (hsub : s.subcontext? o d into rules e = some c') :
    s.place.subdirectory? o d e = some c'.place := by
  unfold subcontext? at hsub
  split at hsub
  · obtain ⟨q, hq, rfl⟩ := Option.map_eq_some_iff.1 hsub
    exact hq
  · cases hsub

namespace Route

variable (hd : d.WellFormed) (h : Route o d into c way s)

include hd h

theorem isName : ∀ name ∈ way, Path.IsName name := by
  induction h with
  | here => simp
  | on _ henter he _ ih =>
    obtain ⟨own, -, -, hscan⟩ := enter_eq_ok henter
    intro name hname
    rcases List.mem_append.1 hname with hbefore | hlast
    · exact ih name hbefore
    · rw [List.mem_singleton.1 hlast]
      exact Disk.isName_of_mem_scan hd hscan he

omit hd in
theorem path_eq : s.place.path = Path.below c.place.path way := by
  induction h with
  | here => rfl
  | on _ henter he hsub ih =>
    obtain ⟨own, -, -, hscan⟩ := enter_eq_ok henter
    obtain ⟨-, hbelow⟩ := Place.subdirectory?_eq_some (subdirectory?_of_subcontext? hsub)
    obtain ⟨-, -, -, -, -, -, hpath, -⟩ := Disk.mem_scan hscan he
    rw [(Place.below?_eq_some hbelow).1, hpath, ih, Path.below_concat]

omit hd in
theorem absolute_eq : s.place.absolute = Path.below c.place.absolute way := by
  induction h with
  | here => rfl
  | on _ _ _ hsub ih =>
    obtain ⟨-, hbelow⟩ := Place.subdirectory?_eq_some (subdirectory?_of_subcontext? hsub)
    rw [(Place.below?_eq_some hbelow).2.1, ih, Path.below_concat]

/-- The directories on the way are all different. -/
theorem exists_way {above : List Location} (hway : Place.Way o d above c.place) :
    ∃ ls : List Location, ls.length = way.length ∧ Place.Way o d (ls ++ above) s.place := by
  induction h with
  | here => exact ⟨[], rfl, hway⟩
  | on _ henter he hsub ih =>
    obtain ⟨own, -, -, hscan⟩ := enter_eq_ok henter
    obtain ⟨ls, hlen, hls⟩ := ih
    obtain ⟨l, hl⟩ := hls.step hd hscan he (subdirectory?_of_subcontext? hsub)
    exact ⟨l :: ls, by rw [List.length_cons, hlen, List.length_append, List.length_singleton], hl⟩

end Route

end Context

/-! ## Walks of a directory -/

namespace Walker

variable {w : Walker} {d : Disk} (hd : d.WellFormed) {root : Text}
  (hroot : d.isDirectory root = true)

include hd hroot

/-- What is reported below a directory comes from the recursion, however errors are treated. -/
theorem mem_results_of_isDirectory {r : Result} (hr : r ∈ w.results d root) :
    match w.options.output with
    | .files => r ∈ (Context.root w.options d root).results w.options d w.options.descends
        (d.root.size + 1)
    | .directories => ∃ p ∈ (Context.root w.options d root).live w.options d w.options.descends
        (d.root.size + 1), r = ⟨Path.plain p, true⟩ := by
  rw [results, walk_eq_untilFinal w hd (Nat.lt_succ_self _), Walk.listing,
    if_pos (Disk.has_of_isDirectory hroot), if_pos hroot, Context.tree] at hr
  have hall := ((isPrefix_untilFinal _).filterMap Event.result?).subset hr
  rw [Options.results_listing] at hall
  cases hout : w.options.output with
  | files =>
    rw [hout] at hall
    exact hall
  | directories =>
    rw [hout] at hall
    obtain ⟨p, hp, rfl⟩ := List.mem_map.1 hall
    exact ⟨p, hp, rfl⟩

end Walker

end TreeSieve
