import TreeSieve.Proofs.Ending
import TreeSieve.Proofs.FileLines
import TreeSieve.Proofs.Overwriting
import TreeSieve.Proofs.Polarity

/-!
# Patterns as the top of the root's rule file

The patterns of a walk are rules before the rule file of the root is read. If the file is
overwritten with the patterns as lines in front of its old lines, the root is entered with the same
rules without any patterns (`Context.enter_root_overwrite`). Below the root nothing is different: in
a tree without links no other directory has the same rule file (`Context.ownRules_overwrite`). So
both walks show the same (`Walker.walk_patterns_in_file`).
-/

namespace TreeSieve

open TreeSieve.Sym

theorem Place.ownRules_of_file {o : Options} {d : Disk} {p : Place} {name : Text} {l : Location}
    {content : List UInt8} (hname : o.ruleFileName = some name)
    (hlocated : d.locate (Path.join p.absolute name) = .ok l)
    (hget : d.root.get? l = some (.file content)) (hreadable : l ∉ d.unreadable) :
    p.ownRules o d false =
      .ok (RuleStack.declared p.absolute (RuleStack.fileLines content)).reverse := by
  have hfile : d.isFile (Path.join p.absolute name) = true := by
    rw [Disk.isFile, Disk.node?, hlocated]
    simp only [hget]
    rfl
  have hread : d.read (Path.join p.absolute name) = .ok content := by
    rw [Disk.read_eq, hlocated]
    simp only [hget]
    exact if_neg hreadable
  rw [Place.ownRules, hname]
  simp only [Bool.false_eq_true, ↓reduceIte, hfile, hread]

namespace Context

variable {o : Options} {into : Standing → Bool} {d : Disk} {root : Text} {l : Location}
  {tree : Node} {name : Text} {content : List UInt8} (hh : d.Lists root l tree)
  (hfile : tree.get? [name] = some (.file content)) (hname : o.ruleFileName = some name)

include hh hfile

theorem get?_ruleFile : d.root.get? (l ++ [name]) = some (.file content) := by
  rw [Node.get?_append, hh.stands]
  exact hfile

theorem isName_ruleFile : Path.IsName name :=
  hh.wellFormed.isName_of_get? (get?_ruleFile hh hfile) name
    (List.mem_append_right l List.mem_cons_self)

theorem locate_ruleFile : d.locate (Path.join (d.absolute root) name) = .ok (l ++ [name]) := by
  obtain ⟨entries, rfl⟩ := hh.exists_entries
  have hlook : entries.lookup name = some (.file content) := by
    simpa [Node.get?_directory_cons] using hfile
  exact (Place.at_root {} hh).locate_child hh (Node.mem_of_lookup hlook)

/-! ## Below the root -/

/-- A directory of a tree, but not the topmost one. -/
def IsBelow (d : Disk) (root : Text) (l : Location) (tree : Node) (s : Context) : Prop :=
  ∃ way entries, way ≠ [] ∧ s.place.At d root l tree way entries

omit hfile in
/-- What a walk goes on to lies below. -/
theorem isBelow_of_mem_subcontexts {way : List Text} {entries : List (Text × Node)}
    {s s' : Context} (h : s.place.At d root l tree way entries) {rules : List Rule}
    {children : List Entry} (henter : s.enter o d = .ok (rules, children))
    (hs' : s' ∈ children.filterMap (s.subcontext? o d into rules)) :
    s'.IsBelow d root l tree := by
  obtain ⟨own, -, -, hscan⟩ := enter_eq_ok henter
  rw [h.scan_eq hh] at hscan
  split at hscan
  · cases hscan
  · obtain rfl := Except.ok.inj hscan
    obtain ⟨n, below, hat⟩ := exists_at_of_mem_subcontexts hh h hs'
    exact ⟨way ++ [n], below, by simp, hat⟩

/-- The same entries are gone on to. -/
theorem subcontext?_overwrite (bytes : List UInt8) (s : Context) :
    s.subcontext? o (d.overwrite (l ++ [name]) bytes) into = s.subcontext? o d into := by
  funext rules e
  rw [subcontext?, subcontext?,
    (Disk.resembles_overwrite (get?_ruleFile hh hfile) bytes).subdirectory?]

include hname

/-- A directory below the root has a rule file of its own. -/
theorem ownRules_overwrite (bytes : List UInt8) {s : Context} (hs : s.IsBelow d root l tree) :
    s.ownRules o (d.overwrite (l ++ [name]) bytes) = s.ownRules o d := by
  obtain ⟨way, entries, hway, h⟩ := hs
  have hget := get?_ruleFile hh hfile
  rw [ownRules, ownRules, Place.ownRules, Place.ownRules, hname]
  simp only [(Disk.resembles_overwrite hget bytes).isFile]
  cases hlook : entries.lookup name with
  | none =>
    have hslash := (isName_ruleFile hh hfile).2.2.2.1
    rw [Disk.isFile_join_of_lookup h.located (h.get?_eq hh) hslash hlook]
    rfl
  | some node =>
    have hlocated := h.locate_child hh (Node.mem_of_lookup hlook)
    have hne : l ++ (way ++ [name]) ≠ l ++ [name] := by
      intro heq
      exact hway (List.append_left_eq_self.1 (List.append_cancel_left heq))
    rw [Disk.read_overwrite_of_ne hget bytes hlocated hne]

theorem enter_overwrite (bytes : List UInt8) {s : Context} (hs : s.IsBelow d root l tree) :
    s.enter o (d.overwrite (l ++ [name]) bytes) = s.enter o d := by
  have hget := get?_ruleFile hh hfile
  rw [enter, enter, ownRules_overwrite hh hfile hname bytes hs,
    (Disk.resembles_overwrite hget bytes).place_scan o hh.wellFormed
      (hh.wellFormed.overwrite hget bytes)]

variable (into) in
/-- Walks from below the root show the same. -/
theorem walk_live_overwrite (bytes : List UInt8) (levels : Nat) {s : Context}
    (hs : s.IsBelow d root l tree) :
    s.walk o (d.overwrite (l ++ [name]) bytes) into levels = s.walk o d into levels ∧
      s.live o (d.overwrite (l ++ [name]) bytes) into levels = s.live o d into levels := by
  have hbelow : ∀ (c : Context) rules children, c.IsBelow d root l tree →
      c.enter o d = .ok (rules, children) →
      ∀ c' ∈ children.filterMap (c.subcontext? o d into rules), c'.IsBelow d root l tree := by
    rintro c rules children ⟨way, entries, -, h⟩ henter c' hc'
    exact isBelow_of_mem_subcontexts hh h henter hc'
  constructor
  · exact walk_congr_along (fun c hc => enter_overwrite hh hfile hname bytes hc) (fun _ => rfl)
      (fun c _ => subcontext?_overwrite hh hfile bytes c) hbelow rfl levels hs
  · exact live_congr_along (fun c hc => enter_overwrite hh hfile hname bytes hc) (fun _ => rfl)
      (fun c _ => subcontext?_overwrite hh hfile bytes c) hbelow levels hs

/-! ## The root -/

section Root

variable (hreadable : l ++ [name] ∉ d.unreadable) {patterns : List Text} {bytes : List UInt8}
  (hbytes : RuleStack.fileLines bytes = patterns ++ RuleStack.fileLines content)

include hreadable hbytes

/-- **The root is entered with the same rules.** -/
theorem enter_root_overwrite :
    (Context.root (o.withPatterns []) d root).enter o (d.overwrite (l ++ [name]) bytes) =
      (Context.root (o.withPatterns patterns) d root).enter o d := by
  have hget := get?_ruleFile hh hfile
  have hlocated := locate_ruleFile hh hfile
  have hres := Disk.resembles_overwrite hget bytes
  have hown := Place.ownRules_of_file (p := Place.root o d root) hname hlocated hget hreadable
  have hown' := Place.ownRules_of_file (p := Place.root o d root) hname
    ((hres.locate _).trans hlocated) (Disk.get?_overwrite hget bytes) hreadable
  rw [hbytes, RuleStack.declared_append, List.reverse_append] at hown'
  have hscan : (Place.root o d root).scan o (d.overwrite (l ++ [name]) bytes) =
      (Place.root o d root).scan o d :=
    hres.place_scan o hh.wellFormed (hh.wellFormed.overwrite hget bytes) _
  have hplace : ∀ ps, Place.root (o.withPatterns ps) d root = Place.root o d root := fun _ => rfl
  simp only [enter, ownRules, Context.root, hplace, Standing.isExcluded, hown, hown', hscan]
  cases (Place.root o d root).scan o d with
  | error fault => rfl
  | ok children => simp [RuleStack.declared, Options.withPatterns, Place.root]

variable (into) in
/-- **The walks of a root show the same** with patterns as with lines at the top of its rule
file. -/
theorem tree_overwrite (levels : Nat) :
    Context.tree (o.withPatterns []) (d.overwrite (l ++ [name]) bytes) into levels root =
      Context.tree (o.withPatterns patterns) d into levels root := by
  have hres := Disk.resembles_overwrite (get?_ruleFile hh hfile) bytes
  have henter := enter_root_overwrite hh hfile hname hreadable hbytes
  rw [Context.tree, Context.tree, hres.context_root, walk_withPatterns, walk_withPatterns,
    live_withPatterns, live_withPatterns]
  cases levels with
  | zero => rfl
  | succ levels =>
    rw [walk, walk, live, live, henter, subcontext?_overwrite hh hfile]
    cases hscope : (Context.root (o.withPatterns patterns) d root).enter o d with
    | error e => rfl
    | ok scope =>
      obtain ⟨rules, children⟩ := scope
      -- The rules in scope around a directory matter only when it is entered.
      have hreports : (Context.root (o.withPatterns []) d root).reports o =
          (Context.root (o.withPatterns patterns) d root).reports o := rfl
      have hsub : (Context.root (o.withPatterns []) d root).subcontext? o d into =
          (Context.root (o.withPatterns patterns) d root).subcontext? o d into := rfl
      have hbelow : ∀ s' ∈ children.filterMap
          ((Context.root (o.withPatterns patterns) d root).subcontext? o d into rules),
          s'.walk o (d.overwrite (l ++ [name]) bytes) into levels = s'.walk o d into levels ∧
            s'.live o (d.overwrite (l ++ [name]) bytes) into levels =
              s'.live o d into levels := by
        intro s' hs'
        obtain ⟨entries, rfl⟩ := hh.exists_entries
        exact walk_live_overwrite into hh hfile hname bytes levels
          (isBelow_of_mem_subcontexts hh (Place.at_root o hh) hscope hs')
      have hwalk := List.flatMap_congr fun s' hs' => (hbelow s' hs').1
      have hlive := List.flatMap_congr fun s' hs' => (hbelow s' (List.mem_reverse.1 hs')).2
      simp only [hreports, hsub, hwalk, hlive]
      rfl

end Root

end Context

/-- **Patterns are the top of the root's rule file.** In a tree without links whose root has a
readable rule file, a walk with patterns shows the same as a walk without any, when the file has the
patterns as lines in front of what it holds. -/
theorem Walker.walk_patterns_in_file (w : Walker) {d : Disk} {root : Text} {l : Location}
    {tree : Node} (h : d.Lists root l tree) {name : Text}
    (hname : w.options.ruleFileName = some name) {content : List UInt8}
    (hfile : tree.get? [name] = some (.file content)) (hreadable : l ++ [name] ∉ d.unreadable)
    {patterns : List Text} (hpatterns : ∀ p ∈ patterns, p.IsLine) :
    ((w.withPatterns patterns).walk d root none).1 =
      ((w.withPatterns []).walk
        (d.overwrite (l ++ [name]) (Utf8.encodeLines patterns ++ content)) root none).1 := by
  have hget := Context.get?_ruleFile h hfile
  have hres := Disk.resembles_overwrite hget (Utf8.encodeLines patterns ++ content)
  have hd' := h.wellFormed.overwrite hget (Utf8.encodeLines patterns ++ content)
  generalize hoverwritten : d.overwrite (l ++ [name]) (Utf8.encodeLines patterns ++ content) = d'
    at hres hd'
  have hlevels : d.root.size < d.root.size + d'.root.size + 1 := by omega
  have hlevels' : d'.root.size < d.root.size + d'.root.size + 1 := by omega
  have hlisting : Walk.listing (w.options.withPatterns patterns) d
        (Context.tree (w.options.withPatterns patterns) d w.options.descends
          (d.root.size + d'.root.size + 1)) root =
      Walk.listing (w.options.withPatterns []) d' (Context.tree (w.options.withPatterns []) d'
        w.options.descends (d.root.size + d'.root.size + 1)) root := by
    rw [Walk.listing, Walk.listing, hres.has, hres.isDirectory, h.isDirectory,
      Disk.has_of_isDirectory h.isDirectory, ← hoverwritten,
      Context.tree_overwrite w.options.descends h hfile hname hreadable
        (RuleStack.fileLines_encodeLines_append hpatterns content)]
    rfl
  rw [walk_eq_untilFinal _ h.wellFormed hlevels, walk_eq_untilFinal _ hd' hlevels']
  exact congrArg untilFinal hlisting

/-- Two patterns exclude all files but the rule files. The rule file of the root brings one back,
and the rule file below the other one. -/
theorem Walker.walk_patterns_in_file_brought_back :
    let d (top : List UInt8) : Disk := ⟨.directory [("a", .file []), ("é", .file []),
      ("r", .file top), ("s", .directory [("a", .file []), ("é", .file []),
        ("r", .file (Utf8.encode "!é"))])], [], []⟩
    let w : Walker := { options := { ruleFileName := some "r" } }
    ((w.withPatterns []).walk
      ((d (Utf8.encode "!a")).overwrite ["r"] (Utf8.encode "é\na\n!a")) "/" none).1 =
        [.result ⟨"/a", false⟩, .result ⟨"/s/a", false⟩, .result ⟨"/s/é", false⟩] := by
  intro d w
  have hlists : (d (Utf8.encode "!a")).Lists "/" [] (d (Utf8.encode "!a")).root :=
    ⟨by decide, by cbv, by cbv, by cbv, rfl, by cbv⟩
  have hname : w.options.ruleFileName = some "r" := rfl
  have hfile : (d (Utf8.encode "!a")).root.get? ["r"] = some (.file (Utf8.encode "!a")) := rfl
  have hpatterns : ∀ p ∈ (["é", "a"] : List Text), p.IsLine := by
    intro p hp
    rcases List.mem_pair.1 hp with rfl | rfl
    · exact ⟨['é'], rfl, by decide, by decide⟩
    · exact ⟨['a'], rfl, by decide, by decide⟩
  have hbytes : Utf8.encodeLines ["é", "a"] ++ Utf8.encode "!a" = Utf8.encode "é\na\n!a" := by cbv
  have hwalk : ((w.withPatterns ["é", "a"]).walk (d (Utf8.encode "!a")) "/" none).1 =
      [.result ⟨"/a", false⟩, .result ⟨"/s/a", false⟩, .result ⟨"/s/é", false⟩] := by cbv
  have hsame := walk_patterns_in_file w hlists hname hfile List.not_mem_nil hpatterns
  rw [hbytes, List.nil_append, hwalk] at hsame
  exact hsame.symm

end TreeSieve
