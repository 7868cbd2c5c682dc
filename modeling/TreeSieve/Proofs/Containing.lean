import TreeSieve.Proofs.Delivery
import TreeSieve.Proofs.Reported

/-!
# Directories in place of files

A walk that reports directories reports those that lie on the way from a root to a file that the
same walk would report (`Walker.directories_of_files`). For one root this is what the recursion
says about its live directories (`Context.mem_live_iff`). Over several roots every directory is
reported for the first root that leads to it (`firsts`).
-/

namespace TreeSieve

/-! ## First occurrences -/

/-- The results without those whose path came before. -/
def firsts : (seen : List Text) → List Result → List Result
  | _, [] => []
  | seen, r :: rest =>
    if r.path ∈ seen then firsts seen rest else r :: firsts (r.path :: seen) rest

theorem results_withoutRepeats (seen : List Text) (events : List Event) :
    (withoutRepeats seen events).filterMap Event.result? =
      firsts seen (events.filterMap Event.result?) := by
  induction events generalizing seen with
  | nil => rfl
  | cons e rest ih =>
    cases e with
    | result r =>
      have hcons : (Event.result r :: rest).filterMap Event.result? =
          r :: rest.filterMap Event.result? := rfl
      rw [withoutRepeats, hcons, firsts]
      split
      · exact ih seen
      · exact congrArg (r :: ·) (ih _)
    | note _ | error _ | raised _ | refused _ => exact ih seen

theorem mem_firsts {seen : List Text} {results : List Result} {p : Text} :
    p ∈ (firsts seen results).map (·.path) ↔ p ∈ results.map (·.path) ∧ p ∉ seen := by
  induction results generalizing seen with
  | nil => simp [firsts]
  | cons r rest ih =>
    rw [firsts]
    split
    · next hr =>
      rw [ih, List.map_cons, List.mem_cons]
      constructor
      · rintro ⟨hp, hseen⟩
        exact ⟨Or.inr hp, hseen⟩
      · rintro ⟨rfl | hp, hseen⟩
        · exact absurd hr hseen
        · exact ⟨hp, hseen⟩
    · next hr =>
      rw [List.map_cons, List.mem_cons, ih, List.map_cons, List.mem_cons, List.mem_cons, not_or]
      constructor
      · rintro (rfl | ⟨hp, -, hseen⟩)
        · exact ⟨Or.inl rfl, hr⟩
        · exact ⟨Or.inr hp, hseen⟩
      · rintro ⟨rfl | hp, hseen⟩
        · exact Or.inl rfl
        · by_cases heq : p = r.path
          · exact Or.inl heq
          · exact Or.inr ⟨hp, heq, hseen⟩

theorem nodup_firsts (seen : List Text) (results : List Result) :
    ((firsts seen results).map (·.path)).Nodup := by
  induction results generalizing seen with
  | nil => exact List.nodup_nil
  | cons r rest ih =>
    rw [firsts]
    split
    · exact ih seen
    · refine List.nodup_cons.2 ⟨fun hmem => ?_, ih _⟩
      exact (mem_firsts.1 hmem).2 List.mem_cons_self

theorem firsts_sublist (seen : List Text) (results : List Result) :
    (firsts seen results).Sublist results := by
  induction results generalizing seen with
  | nil => exact List.Sublist.slnil
  | cons r rest ih =>
    rw [firsts]
    split
    · exact (ih seen).cons r
    · exact (ih _).cons_cons r

theorem exists_firsts_append (seen : List Text) (results : List Result) :
    ∃ seen', ∀ more, firsts seen (results ++ more) = firsts seen results ++ firsts seen' more := by
  induction results generalizing seen with
  | nil => exact ⟨seen, fun more => rfl⟩
  | cons r rest ih =>
    by_cases hr : r.path ∈ seen
    · obtain ⟨seen', h⟩ := ih seen
      refine ⟨seen', fun more => ?_⟩
      rw [List.cons_append, firsts, firsts, if_pos hr, if_pos hr, h]
    · obtain ⟨seen', h⟩ := ih (r.path :: seen)
      refine ⟨seen', fun more => ?_⟩
      rw [List.cons_append, firsts, firsts, if_neg hr, if_neg hr, h]
      rfl

/-- The first occurrences in several lists come list by list. -/
theorem exists_segments {α : Type} (f : α → List Result) (seen : List Text) (l : List α) :
    ∃ segments : List (List Result), firsts seen (l.flatMap f) = segments.flatten ∧
      List.Forall₂ (fun a segment => segment.Sublist (f a)) l segments := by
  induction l generalizing seen with
  | nil => exact ⟨[], rfl, .nil⟩
  | cons a l ih =>
    obtain ⟨seen', h⟩ := exists_firsts_append seen (f a)
    obtain ⟨segments, hflat, hall⟩ := ih seen'
    refine ⟨firsts seen (f a) :: segments, ?_, .cons (firsts_sublist _ _) hall⟩
    rw [List.flatMap_cons, h, hflat, List.flatten_cons]

/-! ## One root -/

/-- The printed paths of the directories on the way from a root to a file found under it. For a
root that is a file itself this is the directory that holds it. -/
def Walk.between (d : Disk) (root file : Text) : List Text :=
  if d.isDirectory root then Path.between root file else [Path.plain (Path.parent root)]

namespace Walker

/-- The walker with another output mode. -/
def withOutput (w : Walker) (output : OutputMode) : Walker :=
  { w with options := { w.options with output } }

section Output

variable (o : Options) (d : Disk) (into : Standing → Bool) (levels : Nat) (c : Context)

/-- The output mode has no influence on the files that the recursion reports. -/
theorem results_output (output : OutputMode) :
    c.results { o with output } d into levels = c.results o d into levels := by
  have hwalk : c.walk { o with output } d into levels = c.walk o d into levels := by
    apply Context.walk_congr <;> intros <;> rfl
  rw [Context.results, Context.results, hwalk]

theorem live_output (output : OutputMode) :
    c.live { o with output } d into levels = c.live o d into levels := by
  apply Context.live_congr <;> intros <;> rfl

end Output

theorem results_singleFile (o : Options) (d : Disk) (root : Text) :
    ((Walk.singleFile { o with output := .files } d root).filterMap Event.result? = [] ∧
        (Walk.singleFile { o with output := .directories } d root).filterMap Event.result? = []) ∨
      ((Walk.singleFile { o with output := .files } d root).filterMap Event.result? =
          [⟨Path.plain root, false⟩] ∧
        (Walk.singleFile { o with output := .directories } d root).filterMap Event.result? =
          [⟨Path.plain (Path.parent root), true⟩]) := by
  have hskip : ∀ output, ({ o with output } : Options).skipsRuleFile = o.skipsRuleFile :=
    fun _ => rfl
  have hselect : ∀ output, ({ o with output } : Options).selectsFile = o.selectsFile :=
    fun _ => rfl
  unfold Walk.singleFile
  simp only [hskip, hselect]
  by_cases hleft : (o.skipsRuleFile (Path.lastName root) ||
      !o.selectsFile (Path.isHidden root)) = true
  · rw [if_pos hleft, if_pos hleft]
    exact Or.inl ⟨rfl, rfl⟩
  · rw [if_neg hleft, if_neg hleft]
    split
    · exact Or.inl ⟨rfl, rfl⟩
    · exact Or.inr ⟨rfl, rfl⟩

section Report

variable {w : Walker} (hreport : w.options.onError = .report) {d : Disk} (hd : d.WellFormed)

include hreport hd

theorem results_files {root : Text} (hroot : d.isDirectory root = true) {levels : Nat}
    (hlevels : d.root.size < levels) : (w.withOutput .files).results d root =
      (Context.root w.options d root).results w.options d w.options.descends levels := by
  have hreport' : (w.withOutput .files).options.onError = .report := hreport
  rw [results_of_isDirectory hreport' hd hlevels hroot]
  exact results_output w.options d _ levels _ .files

theorem results_directories {root : Text} (hroot : d.isDirectory root = true) {levels : Nat}
    (hlevels : d.root.size < levels) : (w.withOutput .directories).results d root =
      ((Context.root w.options d root).live w.options d w.options.descends levels).map
        fun path => ⟨Path.plain path, true⟩ := by
  have hreport' : (w.withOutput .directories).options.onError = .report := hreport
  rw [results_of_isDirectory hreport' hd hlevels hroot]
  exact congrArg _ (live_output w.options d _ levels _ .directories)

/-- A root that is no directory stands for itself or for the directory that holds it. -/
theorem results_of_file {root : Text} (hroot : d.isDirectory root = false) :
    ((w.withOutput .files).results d root = [] ∧ (w.withOutput .directories).results d root = []) ∨
      ((w.withOutput .files).results d root = [⟨Path.plain root, false⟩] ∧
        (w.withOutput .directories).results d root = [⟨Path.plain (Path.parent root), true⟩]) := by
  have hlisting : ∀ output, (w.withOutput output).results d root = if d.has root then
      (Walk.singleFile { w.options with output } d root).filterMap Event.result? else [] := by
    intro output
    have hreport' : (w.withOutput output).options.onError = .report := hreport
    exact results_of_not_isDirectory hreport' hd hroot
  rw [hlisting, hlisting]
  split
  · exact results_singleFile w.options d root
  · exact Or.inl ⟨rfl, rfl⟩

/-- **The directories reported for one root** are those on the way to the files that are reported
for it. -/
theorem mem_results_directories {root p : Text} :
    p ∈ ((w.withOutput .directories).results d root).map (·.path) ↔
      ∃ r ∈ (w.withOutput .files).results d root, p ∈ Walk.between d root r.path := by
  cases hroot : d.isDirectory root with
  | true =>
    simp only [Walk.between, hroot, ↓reduceIte]
    rw [results_files hreport hd hroot (Nat.lt_succ_self _),
      results_directories hreport hd hroot (Nat.lt_succ_self _), List.map_map]
    exact Context.mem_live_iff hd _ (Context.root w.options d root)
  | false =>
    simp only [Walk.between, hroot, Bool.false_eq_true, ↓reduceIte]
    rcases results_of_file hreport hd hroot with ⟨hfiles, hdirs⟩ | ⟨hfiles, hdirs⟩
    · rw [hfiles, hdirs]
      simp
    · rw [hfiles, hdirs]
      simp

theorem pairwise_results_directories (root : Text) :
    ((w.withOutput .directories).results d root).Pairwise
      fun a b => ¬Path.IsAbove b.path a.path := by
  cases hroot : d.isDirectory root with
  | true =>
    rw [results_directories hreport hd hroot (Nat.lt_succ_self _), List.pairwise_map]
    apply (Context.pairwise_live hd _ (Context.root w.options d root)).imp
    intro p q hnot habove
    rw [Path.IsAbove, Path.names_plain, Path.names_plain] at habove
    exact hnot habove
  | false =>
    rcases results_of_file hreport hd hroot with ⟨-, hdirs⟩ | ⟨-, hdirs⟩
    · rw [hdirs]
      exact List.Pairwise.nil
    · rw [hdirs]
      exact List.pairwise_singleton _ _

theorem resultsMany_files (roots : List Text) : (w.withOutput .files).resultsMany d roots =
    roots.flatMap ((w.withOutput .files).results d) := by
  have hreport' : (w.withOutput .files).options.onError = .report := hreport
  rw [resultsMany, walkMany_eq hreport' hd (Nat.lt_succ_self _)]
  exact List.filterMap_flatMap

theorem resultsMany_directories (roots : List Text) :
    (w.withOutput .directories).resultsMany d roots =
      firsts [] (roots.flatMap ((w.withOutput .directories).results d)) := by
  have hreport' : (w.withOutput .directories).options.onError = .report := hreport
  rw [resultsMany, walkMany_eq hreport' hd (Nat.lt_succ_self _)]
  exact (results_withoutRepeats [] _).trans (congrArg _ List.filterMap_flatMap)

end Report

/-- **Directories in place of files.** -/
theorem directories_of_files {w : Walker} (hreport : w.options.onError = .report) {d : Disk}
    (hd : d.WellFormed) (roots : List Text) :
    (((w.withOutput .directories).resultsMany d roots).map (·.path)).Nodup ∧
    (∀ p, p ∈ ((w.withOutput .directories).resultsMany d roots).map (·.path) ↔
      ∃ root ∈ roots, ∃ r ∈ (w.withOutput .files).results d root,
        p ∈ Walk.between d root r.path) ∧
    (w.withOutput .files).resultsMany d roots = roots.flatMap ((w.withOutput .files).results d) ∧
    ∃ segments : List (List Result),
      (w.withOutput .directories).resultsMany d roots = segments.flatten ∧
      List.Forall₂ (fun root segment =>
        segment.Sublist ((w.withOutput .directories).results d root) ∧
          segment.Pairwise fun a b => ¬Path.IsAbove b.path a.path) roots segments := by
  rw [resultsMany_directories hreport hd]
  refine ⟨nodup_firsts _ _, ?_, resultsMany_files hreport hd roots, ?_⟩
  · intro p
    rw [mem_firsts, List.map_flatMap, List.mem_flatMap]
    simp only [mem_results_directories hreport hd, List.not_mem_nil, not_false_eq_true, and_true]
  · obtain ⟨segments, hflat, hall⟩ :=
      exists_segments ((w.withOutput .directories).results d) [] roots
    refine ⟨segments, hflat, hall.imp fun root segment hsub => ⟨hsub, ?_⟩⟩
    exact (pairwise_results_directories hreport hd root).sublist hsub

/-- A file in a subdirectory, found under two roots, and one that is a root itself. -/
theorem directories_of_files_subdirectory :
    (((withOutput { options := {} } .directories).resultsMany
        ⟨.directory [("x", .directory [("y", .file [])]), ("z", .file [])], [], []⟩
        ["/z", "/", "/x"]).map (·.path)).Nodup ∧
      ("/x" : Text) ∈ ((withOutput { options := {} } .directories).resultsMany
        ⟨.directory [("x", .directory [("y", .file [])]), ("z", .file [])], [], []⟩
        ["/z", "/", "/x"]).map (·.path) := by
  have hfiles : (withOutput { options := {} } .files).results
      ⟨.directory [("x", .directory [("y", .file [])]), ("z", .file [])], [], []⟩ "/" =
        [⟨"/z", false⟩, ⟨"/x/y", false⟩] := by cbv
  have hway : Walk.between
      ⟨.directory [("x", .directory [("y", .file [])]), ("z", .file [])], [], []⟩ "/" "/x/y" =
        ["/", "/x"] := by cbv
  have h := directories_of_files (w := { options := {} }) rfl
    (d := ⟨.directory [("x", .directory [("y", .file [])]), ("z", .file [])], [], []⟩) (by decide)
    ["/z", "/", "/x"]
  refine ⟨h.1, (h.2.1 "/x").2 ⟨"/", by decide, ⟨"/x/y", false⟩, ?_, ?_⟩⟩
  · rw [hfiles]
    decide
  · rw [hway]
    decide

end Walker

end TreeSieve
