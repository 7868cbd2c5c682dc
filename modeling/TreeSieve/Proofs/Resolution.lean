import TreeSieve.Proofs.Finding
import TreeSieve.Proofs.Route

/-!
# Where reported paths lead

A walk lists directories by the absolute form of their paths, and shows their entries under the
path of the root as it was given. So a reported path leads to the entry that it stands for if the
root and its absolute form lead to the same directory (`Walker.results_lead_below`). That is so for
every root without `..`. In the absolute form a `..` removes the name before it, and if that name is
a link, the walk can list another directory than the one that the root leads to
(`Walker.results_lead_elsewhere`).
-/

namespace TreeSieve

open TreeSieve.Sym

namespace Disk

variable {d : Disk} {p : Text} {l : Location} (hl : d.locate p = .ok l)

include hl

/-- An entry of the directory at a path is found below the path, also if it is a link. -/
theorem find_entry_join {entries : List (Text × Node)}
    (hget : d.root.get? l = some (.directory entries)) {name : Text} (hname : Path.IsName name)
    {node : Node} (hlook : entries.lookup name = some node) :
    d.find .entry (Path.join p name) = .ok (l ++ [name]) := by
  obtain ⟨links, hfind⟩ := exists_find_below .entry hl
  exact (hfind [name] (by simpa using hname) (by simp)).trans (follow_entry hget hname hlook links)

end Disk

namespace Context

variable {o : Options} {d : Disk} {into : Standing → Bool} {c s : Context} {way : List Text}

/-- Without links a route leads down the tree of directories. -/
theorem Route.locate_eq (hd : d.WellFormed) (hlinks : o.followLinks = false)
    (h : Route o d into c way s) {l : Location} (hl : d.locate c.place.absolute = .ok l) :
    d.locate s.place.absolute = .ok (l ++ way) := by
  induction h with
  | here => rw [hl, List.append_nil]
  | on _ henter he hsub ih =>
    obtain ⟨own, -, -, hscan⟩ := enter_eq_ok henter
    obtain ⟨hdir, hbelow⟩ := Place.subdirectory?_eq_some (subdirectory?_of_subcontext? hsub)
    obtain ⟨k, m, entries, hk, hm, -, hdeeper⟩ := Disk.locate_subdirectory hd hscan he hdir
    rw [ih] at hk
    obtain rfl := Except.ok.inj hk
    rw [(Place.below?_eq_some hbelow).2.1, hm, hdeeper hlinks, List.append_assoc]

end Context

namespace Walker

variable {w : Walker} (hfiles : w.options.output = .files) {d : Disk} (hd : d.WellFormed)
  {root : Text} (hroot : d.isDirectory root = true)

include hfiles hd hroot

/-- A reported file is an entry of a directory below the absolute form of the root, and it is shown
below the root as it was given. -/
theorem exists_entry_of_mem_results {r : Result} (hr : r ∈ w.results d root) :
    ∃ way name m node, (∀ n ∈ way ++ [name], Path.IsName n) ∧
      r.path = Path.plain (Path.below root (way ++ [name])) ∧
      d.find .entry (Path.below (d.absolute root) (way ++ [name])) = .ok m ∧
      d.root.get? m = some node ∧
      (w.options.followLinks = false → ∀ l, d.locate (d.absolute root) = .ok l →
        m = l ++ (way ++ [name])) := by
  have hall := mem_results_of_isDirectory hd hroot hr
  rw [hfiles] at hall
  obtain ⟨way, s, rules, children, hroute, henter, e, he, -, rfl⟩ :=
    Context.exists_route_of_mem_results hall
  obtain ⟨own, -, -, hscan⟩ := Context.enter_eq_ok henter
  obtain ⟨k, entries, node, hk, hget, hmem, hpath, -⟩ := Disk.mem_scan hscan he
  have hname := Disk.isName_of_mem_scan hd hscan he
  have hnodup := (hd.entries hget).1
  have hfind := Disk.find_entry_join hk hget hname (Node.lookup_of_mem hnodup hmem)
  refine ⟨way, e.name, k ++ [e.name], node, ?_, ?_, ?_, Node.get?_of_mem hget hnodup hmem, ?_⟩
  · intro n hn
    rcases List.mem_append.1 hn with hn | hn
    · exact hroute.isName hd n hn
    · exact List.mem_singleton.1 hn ▸ hname
  · rw [Context.reported, hpath, hroute.path_eq, Path.below_concat]
    rfl
  · rw [hroute.absolute_eq] at hfind
    rw [Path.below_concat]
    exact hfind
  · intro hlinks l hl
    have hdown := hroute.locate_eq hd hlinks hl
    rw [hk] at hdown
    rw [Except.ok.inj hdown, List.append_assoc]

/-- **Where reported paths lead.** If the root has no `..`, or if its absolute form leads where it
leads itself, then every reported path leads to an entry, and that is the entry which its names
reach from the directory that the root leads to. One thing can be in the way: if links are followed
and the root has a `..`, there can be more links on the reported path than the system follows. -/
theorem results_lead_below
    (hsame : Path.above ∈ Path.names root → d.locate (d.absolute root) = d.locate root) :
    ∃ l, d.locate root = .ok l ∧ ∀ r ∈ w.results d root, ∃ rest m,
      Path.names r.path = Path.names root ++ rest ∧ rest ≠ [] ∧
      (∃ links, d.follow .entry links l rest = .ok m) ∧ (d.root.get? m).isSome = true ∧
      (d.find .entry r.path = .ok m ∨ w.options.followLinks = true ∧
        Path.above ∈ Path.names root ∧ d.find .entry r.path = .error .tooManyLinks) := by
  obtain ⟨l, hl⟩ : ∃ l, d.locate root = .ok l := by
    rw [Disk.isDirectory, Disk.node?] at hroot
    cases hl : d.locate root with
    | ok l => exact ⟨l, rfl⟩
    | error e =>
      rw [hl] at hroot
      cases hroot
  refine ⟨l, hl, fun r hr => ?_⟩
  obtain ⟨way, name, m, node, hnames, hpath, hfind, hget, hdown⟩ :=
    exists_entry_of_mem_results hfiles hd hroot hr
  have hne : way ++ [name] ≠ [] := by simp
  have hshown : d.find .entry r.path = d.find .entry (Path.below root (way ++ [name])) := by
    rw [hpath, Disk.find_plain_below .entry (Disk.locate_eq_ok hl).1 hnames hne]
  obtain ⟨links, hbelow⟩ := Disk.exists_find_below .entry hl
  have hgiven := hbelow _ hnames hne
  refine ⟨way ++ [name], m, ?_, hne, ?_⟩
  · rw [hpath, Path.names_plain, Path.names_below hnames]
  rw [hshown, hget]
  by_cases habove : Path.above ∈ Path.names root
  · have habs : d.locate (d.absolute root) = .ok l := (hsame habove).trans hl
    obtain ⟨links', hbelow'⟩ := Disk.exists_find_below .entry habs
    rw [hbelow' _ hnames hne] at hfind
    refine ⟨⟨links', hfind⟩, rfl, ?_⟩
    rw [hgiven]
    cases hlinks : w.options.followLinks with
    | true =>
      exact (Disk.follow_of_follow hfind links).imp_right fun herror => ⟨rfl, habove, herror⟩
    | false =>
      obtain rfl := hdown hlinks l habs
      exact Or.inl (Disk.follow_entry_of_get? hget hnames links)
  · rw [Disk.find_below_absolute .entry hd hl habove hnames hne] at hfind
    exact ⟨⟨links, hgiven ▸ hfind⟩, rfl, Or.inl hfind⟩

omit hfiles hd hroot

/-- A root whose `..` is not behind a link. -/
theorem results_lead_below_sibling :
    let d : Disk := ⟨.directory [("a", .directory [("x", .file [])]), ("b", .directory [])], [], []⟩
    let w : Walker := { options := {} }
    (⟨"b/../a/x", false⟩ : Result) ∈ w.results d "b/../a" ∧
      ∃ m, (d.root.get? m).isSome = true ∧ d.find .entry "b/../a/x" = .ok m := by
  intro d w
  have hresults : w.results d "b/../a" = [⟨"b/../a/x", false⟩] := by cbv
  have hmem : (⟨"b/../a/x", false⟩ : Result) ∈ w.results d "b/../a" := by
    rw [hresults]
    exact List.mem_singleton_self _
  have hroot : d.isDirectory "b/../a" = true := by cbv
  obtain ⟨l, -, hall⟩ := results_lead_below (w := w) rfl (by decide) hroot fun _ => by cbv
  obtain ⟨rest, m, -, -, -, hsome, hfind | ⟨hlinks, -⟩⟩ := hall _ hmem
  · exact ⟨hmem, m, hsome, hfind⟩
  · cases hlinks

/-- **A `..` behind a link.** The root `link/..` leads to the directory `a`, but `/` is listed, and
nothing is at the path under which its entry `link` is reported. -/
theorem results_lead_elsewhere :
    let d : Disk := ⟨.directory [("a", .directory [("b", .directory [("x", .file [])])]),
      ("link", .link "a/b"), ("top", .file [])], [], []⟩
    let w : Walker := { options := {} }
    d.locate "link/.." = .ok ["a"] ∧ d.isDirectory "link/.." = true ∧
      (⟨"link/../link", false⟩ : Result) ∈ w.results d "link/.." ∧
      d.find .entry "link/../link" = .error .notFound := by
  intro d w
  have hresults : w.results d "link/.." =
      [⟨"link/../link", false⟩, ⟨"link/../top", false⟩, ⟨"link/../a/b/x", false⟩] := by cbv
  refine ⟨by cbv, by cbv, ?_, by cbv⟩
  rw [hresults]
  exact List.mem_cons_self

end Walker

end TreeSieve
