import TreeSieve.Proofs.Ending
import TreeSieve.Proofs.Placement
import TreeSieve.Proofs.RuleRegex

/-!
# Walks of a tree in two places

Rules are matched against absolute paths, so the place where a tree stands is in the anchor of every
rule and at the front of every path. It is the same text in both, and the rest of a path is written
without it, so the place cancels out in every match (`Rule.Alike`). Two walks of a tree in different
places then go along side by side (`Context.Relocated`), and what they show differs only in the root
at the front of the paths (`Walker.walk_relocated`).
-/

namespace TreeSieve

open TreeSieve.Sym

/-! ## Lists side by side -/

section Lists

variable {α β : Type} {R : α → β → Prop} {p : α → Bool} {q : β → Bool}
  (hpq : ∀ a b, R a b → q b = p a) {as : List α} {bs : List β} (h : List.Forall₂ R as bs)

include hpq h

theorem rel_find? : Option.Rel R (as.find? p) (bs.find? q) := by
  induction h with
  | nil => exact .none
  | cons hab _ ih =>
    rw [List.find?_cons, List.find?_cons, hpq _ _ hab]
    split
    · exact .some hab
    · exact ih

theorem forall₂_takeWhile : List.Forall₂ R (as.takeWhile p) (bs.takeWhile q) := by
  induction h with
  | nil => exact .nil
  | cons hab _ ih =>
    rw [List.takeWhile_cons, List.takeWhile_cons, hpq _ _ hab]
    split
    · exact .cons hab ih
    · exact .nil

theorem any_eq_of_forall₂ : bs.any q = as.any p := by
  induction h with
  | nil => rfl
  | cons hab _ ih => rw [List.any_cons, List.any_cons, hpq _ _ hab, ih]

omit hpq in
theorem isEmpty_eq_of_forall₂ : bs.isEmpty = as.isEmpty := by
  cases h <;> rfl

end Lists

/-! ## Rules and standings -/

/-- Two rules that say the same behind the paths of two directories. -/
structure Rule.Alike (a a' : Text) (r r' : Rule) : Prop where
  directoryOnly : r'.directoryOnly = r.directoryOnly
  negated : r'.negated = r.negated
  accepts : ∀ t, r'.accepts (a' ++ t) = r.accepts (a ++ t)

section Alike

variable {a a' : Text}

theorem Rule.Alike.applies {r r' : Rule} (h : r.Alike a a' r') (t : Text) (isDirectory : Bool) :
    r'.applies (a' ++ t) isDirectory = r.applies (a ++ t) isDirectory := by
  rw [Rule.applies, Rule.applies, h.directoryOnly, h.accepts]

/-- A line makes rules that say the same in two directories on the same way from two others. -/
theorem Rule.rel_ofLine? {directory directory' u : Text} (h : Path.trimmed directory = a ++ u)
    (h' : Path.trimmed directory' = a' ++ u) (line : Text) :
    Option.Rel (Rule.Alike a a') (Rule.ofLine? directory line) (Rule.ofLine? directory' line) := by
  unfold Rule.ofLine?
  split
  · exact .none
  · split
    · exact .none
    · refine .some ⟨rfl, rfl, fun t => ?_⟩
      rw [Bool.eq_iff_iff, Rule.accepts_iff, Rule.accepts_iff]
      simp only [h, h', List.append_assoc, List.append_cancel_left_eq]

theorem RuleStack.forall₂_declared {directory directory' u : Text}
    (h : Path.trimmed directory = a ++ u) (h' : Path.trimmed directory' = a' ++ u)
    (lines : List Text) : List.Forall₂ (Rule.Alike a a') (RuleStack.declared directory lines)
      (RuleStack.declared directory' lines) := by
  refine List.rel_filterMap (R := Eq) ?_ (List.forall₂_refl lines)
  rintro line _ rfl
  exact Rule.rel_ofLine? h h' line

/-- Two standings that come from rules that say the same. -/
inductive Standing.Alike (a a' : Text) : Standing → Standing → Prop
  | included : Alike a a' .included .included
  | excluded {above above' : List Rule} (h : List.Forall₂ (Rule.Alike a a') above above') :
    Alike a a' (.excluded above) (.excluded above')

namespace Standing.Alike

variable {s s' : Standing} (h : Standing.Alike a a' s s')

include h

theorem isExcluded : s'.isExcluded = s.isExcluded := by
  cases h <;> rfl

theorem descends (o : Options) : o.descends s' = o.descends s := by
  cases h with
  | included => rfl
  | excluded habove =>
    rw [Options.descends, Options.descends, any_eq_of_forall₂ (fun _ _ hr => hr.negated) habove]

theorem consulted {rules rules' : List Rule}
    (hrules : List.Forall₂ (Rule.Alike a a') rules rules') :
    List.Forall₂ (Rule.Alike a a') (s.consulted rules) (s'.consulted rules') := by
  cases h with
  | included => exact hrules
  | excluded habove => exact habove

/-- Paths that go on alike from the two directories are judged alike. -/
theorem judge {rules rules' : List Rule} (hrules : List.Forall₂ (Rule.Alike a a') rules rules')
    (t : Text) (isDirectory : Bool) : Standing.Alike a a' (s.judge rules (a ++ t) isDirectory)
      (s'.judge rules' (a' ++ t) isDirectory) := by
  have hconsulted := h.consulted hrules
  have happlies : ∀ r r' : Rule, r.Alike a a' r' →
      r'.applies (a' ++ t) isDirectory = r.applies (a ++ t) isDirectory :=
    fun _ _ hr => hr.applies t isDirectory
  have hfind := rel_find? happlies hconsulted
  have hbefore := forall₂_takeWhile (p := fun r => !r.applies (a ++ t) isDirectory)
    (q := fun r => !r.applies (a' ++ t) isDirectory)
    (fun r r' hr => by rw [happlies r r' hr]) hconsulted
  rw [Standing.judge, Standing.judge]
  generalize (s.consulted rules).find? _ = first at hfind ⊢
  generalize (s'.consulted rules').find? _ = first' at hfind ⊢
  cases hfind with
  | none => exact h
  | some hr =>
    simp only [hr.negated]
    split
    · exact .included
    · exact .excluded hbefore

end Standing.Alike

end Alike

/-! ## Directories side by side -/

/-- Two rules that say the same behind the roots of two walks. -/
abbrev Rule.AlikeIn (d d' : Disk) (root root' : Text) : Rule → Rule → Prop :=
  Rule.Alike (Path.trimmed (d.absolute root)) (Path.trimmed (d'.absolute root'))

/-- A walk in one place and a walk in the other are at the same directory of a tree, to which the
way leads inside of the tree. -/
structure Context.Relocated (d d' : Disk) (root root' : Text) (l l' : Location) (tree : Node)
    (way : List Text) (entries : List (Text × Node)) (s s' : Context) : Prop where
  here : s.place.At d root l tree way entries
  there : s'.place.At d' root' l' tree way entries
  depth : s'.place.depth = s.place.depth
  rules : List.Forall₂ (Rule.AlikeIn d d' root root') s.rules s'.rules
  standing : Standing.Alike (Path.trimmed (d.absolute root)) (Path.trimmed (d'.absolute root'))
    s.standing s'.standing

/-- What a walk shows, with the way on which names lead to it from the root. -/
inductive Report where
  | found (way : List Text) (isDirectory : Bool)
  | failed (way : List Text) (cause : Cause)

namespace Report

/-- The names on the way from the root. -/
def way : Report → List Text
  | found way _ => way
  | failed way _ => way

/-- The event in the walk of a root. -/
def event (o : Options) (root : Text) : Report → Event
  | found way isDirectory => .result ⟨Path.plain (Path.below root way), isDirectory⟩
  | failed way cause => o.failure (.unreadable (Path.below root way) cause)

/-- Two events of the walks of two roots that report the same. -/
def Shared (o : Options) (root root' : Text) (e e' : Event) : Prop :=
  ∃ r : Report, (∀ n ∈ r.way, Path.IsName n) ∧ e = r.event o root ∧ e' = r.event o root'

end Report

/-- The entries of a directory of the tree as the walks of two roots list them. -/
theorem Place.forall₂_entryAt (root root' : Text) (way : List Text)
    (entries : List (Text × Node)) :
    List.Forall₂ (fun e e' => ∃ child ∈ entries, e = entryAt root way child ∧
        e' = entryAt root' way child)
      ((sortedByName (·.1) entries).map (entryAt root way))
      ((sortedByName (·.1) entries).map (entryAt root' way)) := by
  refine List.forall₂_map_left_iff.2 (List.forall₂_map_right_iff.2 (List.forall₂_same.2 ?_))
  intro child hchild
  exact ⟨child, List.mem_mergeSort.1 hchild, rfl, rfl⟩

namespace Context

variable {o : Options} {d d' : Disk} {root root' : Text} {l l' : Location} {tree : Node}
  (hh : d.Holds root l tree) (hh' : d'.Holds root' l' tree)
  (hunreadable : ∀ m, l' ++ m ∈ d'.unreadable ↔ l ++ m ∈ d.unreadable)
  (hname : ∀ name, o.ruleFileName = some name → slash ∉ name)

include hh hh'

/-- At the start both walks are at the tree itself. -/
theorem relocated_root : ∃ entries, Relocated d d' root root' l l' tree [] entries
    (Context.root o d root) (Context.root o d' root') := by
  obtain ⟨entries, rfl⟩ := hh.lists.exists_entries
  refine ⟨entries, Place.at_root o hh.lists, Place.at_root o hh'.lists, rfl, ?_, .included⟩
  exact List.rel_reverse (RuleStack.forall₂_declared (List.append_nil _).symm
    (List.append_nil _).symm o.patterns)

namespace Relocated

variable {way : List Text} {entries : List (Text × Node)} {s s' : Context}
  (h : Relocated d d' root root' l l' tree way entries s s')

include h

/-- The rule files hold rules that say the same, or neither can be read. -/
theorem ownRules (hunreadable : ∀ m, l' ++ m ∈ d'.unreadable ↔ l ++ m ∈ d.unreadable)
    (hname : ∀ name, o.ruleFileName = some name → slash ∉ name) :
    (∃ name fault, Path.IsName name ∧
      s.ownRules o d = .error (.unreadable (Path.below root (way ++ [name])) (.ofFault fault)) ∧
      s'.ownRules o d' = .error (.unreadable (Path.below root' (way ++ [name])) (.ofFault fault))) ∨
    ∃ own own', List.Forall₂ (Rule.AlikeIn d d' root root') own own' ∧
      s.ownRules o d = .ok own ∧ s'.ownRules o d' = .ok own' := by
  rw [Context.ownRules, Context.ownRules, h.here.ownRules_eq hh.lists hname,
    h.there.ownRules_eq hh'.lists hname, h.standing.isExcluded]
  have hnone : ∃ own own', List.Forall₂ (Rule.AlikeIn d d' root root') own own' ∧
      (Except.ok [] : Except WalkError (List Rule)) = .ok own ∧
      (Except.ok [] : Except WalkError (List Rule)) = .ok own' := ⟨[], [], .nil, rfl, rfl⟩
  cases o.ruleFileName with
  | none => exact Or.inr hnone
  | some name =>
    simp only
    split
    · exact Or.inr hnone
    · split
      · next content hlook =>
        have hchild := h.here.isName_child hh.lists (Node.mem_of_lookup hlook)
        by_cases hun : l ++ (way ++ [name]) ∈ d.unreadable
        · rw [if_pos hun, if_pos ((hunreadable _).2 hun)]
          exact Or.inl ⟨name, .denied, hchild, rfl, rfl⟩
        · rw [if_neg hun, if_neg fun h => hun ((hunreadable _).1 h)]
          exact Or.inr ⟨_, _, List.rel_reverse (RuleStack.forall₂_declared (h.here.trimmed_eq hh)
            (h.there.trimmed_eq hh') (RuleStack.fileLines content)), rfl, rfl⟩
      · exact Or.inr hnone

/-- Both directories are listed alike, or neither can be entered. -/
theorem enter (hunreadable : ∀ m, l' ++ m ∈ d'.unreadable ↔ l ++ m ∈ d.unreadable)
    (hname : ∀ name, o.ruleFileName = some name → slash ∉ name) :
    (∃ more cause, (∀ n ∈ way ++ more, Path.IsName n) ∧
      s.enter o d = .error (.unreadable (Path.below root (way ++ more)) cause) ∧
      s'.enter o d' = .error (.unreadable (Path.below root' (way ++ more)) cause)) ∨
    ∃ rules rules', List.Forall₂ (Rule.AlikeIn d d' root root') rules rules' ∧
      s.enter o d = .ok (rules, (sortedByName (·.1) entries).map (Place.entryAt root way)) ∧
      s'.enter o d' =
        .ok (rules', (sortedByName (·.1) entries).map (Place.entryAt root' way)) := by
  have hway := h.here.isName_way hh.lists
  rw [Context.enter, Context.enter]
  rcases h.ownRules hh hh' hunreadable hname with ⟨name, fault, hrule, hown, hown'⟩ |
    ⟨own, own', hrules, hown, hown'⟩
  · rw [hown, hown']
    refine Or.inl ⟨[name], _, fun n hn => ?_, rfl, rfl⟩
    rcases List.mem_append.1 hn with hn | hn
    · exact hway n hn
    · exact List.mem_singleton.1 hn ▸ hrule
  · have hpath := h.here.path
    have hpath' := h.there.path
    rw [hown, hown', h.here.scan_eq hh.lists, h.there.scan_eq hh'.lists]
    by_cases hun : l ++ way ∈ d.unreadable
    · rw [if_pos hun, if_pos ((hunreadable _).2 hun)]
      refine Or.inl ⟨[], .ofFault .denied, by simpa using hway, ?_, ?_⟩
      · rw [List.append_nil, ← hpath]
      · rw [List.append_nil, ← hpath']
    · rw [if_neg hun, if_neg fun h => hun ((hunreadable _).1 h)]
      exact Or.inr ⟨_, _, List.rel_append hrules h.rules, rfl, rfl⟩

section Children

variable {rules rules' : List Rule}
  (hrules : List.Forall₂ (Rule.AlikeIn d d' root root') rules rules')

include hrules

theorem judge (child : Text × Node) :
    Standing.Alike (Path.trimmed (d.absolute root)) (Path.trimmed (d'.absolute root'))
      (s.judge rules (Place.entryAt root way child))
      (s'.judge rules' (Place.entryAt root' way child)) := by
  rw [Context.judge, Context.judge, h.here.candidate_eq hh, h.there.candidate_eq hh']
  exact h.standing.judge hrules _ _

theorem reports (child : Text × Node) : s'.reports o rules' (Place.entryAt root' way child) =
    s.reports o rules (Place.entryAt root way child) := by
  rw [Context.reports, Context.reports, (h.judge hh hh' hrules child).isExcluded]
  rfl

theorem rel_subcontext? {child : Text × Node} (hchild : child ∈ entries) :
    Option.Rel (fun c c' => ∃ way below, Relocated d d' root root' l l' tree way below c c')
      (s.subcontext? o d o.descends rules (Place.entryAt root way child))
      (s'.subcontext? o d' o.descends rules' (Place.entryAt root' way child)) := by
  have hjudge := h.judge hh hh' hrules child
  obtain ⟨q, hdepth, hat, hbelow⟩ := h.here.below?_eq (o := o) hh.lists hchild
  obtain ⟨q', hdepth', hat', hbelow'⟩ := h.there.below?_eq (o := o) hh'.lists hchild
  rw [subcontext?, subcontext?, hjudge.descends, Place.subdirectory?, Place.subdirectory?, hbelow,
    hbelow', h.depth]
  split
  · have hkind : (Place.entryAt root' way child).isDirectory =
        (Place.entryAt root way child).isDirectory := rfl
    have hhidden : (Place.entryAt root' way child).isHidden =
        (Place.entryAt root way child).isHidden := rfl
    rw [hkind, hhidden]
    split
    · next hdir =>
      split
      · exact .none
      · obtain ⟨below, hnode⟩ : ∃ below, child.2 = .directory below := by
          have hdirectory : child.2.isDirectory = true := (Bool.and_eq_true_iff.1 hdir).1
          cases hnode : child.2 with
          | directory below => exact ⟨below, rfl⟩
          | _ => rw [hnode] at hdirectory; cases hdirectory
        have hsame : q'.depth = q.depth := by rw [hdepth, hdepth', h.depth]
        exact .some ⟨_, below, hat below hnode, hat' below hnode, hsame, hrules, hjudge⟩
    · exact .none
  · exact .none

/-- Both walks go on to the same subdirectories. -/
theorem forall₂_subcontexts :
    List.Forall₂ (fun c c' => ∃ way below, Relocated d d' root root' l l' tree way below c c')
      (((sortedByName (·.1) entries).map (Place.entryAt root way)).filterMap
        (s.subcontext? o d o.descends rules))
      (((sortedByName (·.1) entries).map (Place.entryAt root' way)).filterMap
        (s'.subcontext? o d' o.descends rules')) := by
  refine List.rel_filterMap ?_ (Place.forall₂_entryAt root root' way entries)
  rintro e e' ⟨child, hchild, rfl, rfl⟩
  exact h.rel_subcontext? hh hh' hrules hchild

end Children

end Relocated

/-! ## Walks side by side -/

variable (hunreadable : ∀ m, l' ++ m ∈ d'.unreadable ↔ l ++ m ∈ d.unreadable)
  (hname : ∀ name, o.ruleFileName = some name → slash ∉ name)

include hunreadable hname

/-- Both walks show the same. -/
theorem forall₂_walk (levels : Nat) {way : List Text} {entries : List (Text × Node)}
    {s s' : Context} (h : Relocated d d' root root' l l' tree way entries s s') :
    List.Forall₂ (Report.Shared o root root') (s.walk o d o.descends levels)
      (s'.walk o d' o.descends levels) := by
  induction levels generalizing way entries s s' with
  | zero => exact .nil
  | succ levels ih =>
    rw [walk, walk]
    rcases h.enter hh hh' hunreadable hname with ⟨more, cause, hway, henter, henter'⟩ |
      ⟨rules, rules', hrules, henter, henter'⟩
    · rw [henter, henter']
      exact .cons ⟨.failed (way ++ more) cause, hway, rfl, rfl⟩ .nil
    · rw [henter, henter']
      have hchildren := Place.forall₂_entryAt root root' way entries
      refine List.rel_append (List.rel_map ?_ (List.rel_filter ?_ hchildren))
        (List.rel_flatMap (h.forall₂_subcontexts hh hh' hrules) ?_)
      · rintro e e' ⟨child, hchild, rfl, rfl⟩
        refine ⟨.found (way ++ [child.1]) false, fun n hn => ?_, rfl, rfl⟩
        rcases List.mem_append.1 hn with hn | hn
        · exact h.here.isName_way hh.lists n hn
        · exact List.mem_singleton.1 hn ▸ h.here.isName_child hh.lists hchild
      · rintro e e' ⟨child, -, rfl, rfl⟩
        exact Bool.eq_iff_iff.1 (h.reports hh hh' hrules child).symm
      · rintro c c' ⟨way, below, hc⟩
        exact ih hc

/-- The same directories have reported files. -/
theorem forall₂_live (levels : Nat) {way : List Text} {entries : List (Text × Node)}
    {s s' : Context} (h : Relocated d d' root root' l l' tree way entries s s') :
    List.Forall₂ (fun p p' => ∃ way, (∀ n ∈ way, Path.IsName n) ∧ p = Path.below root way ∧
        p' = Path.below root' way)
      (s.live o d o.descends levels) (s'.live o d' o.descends levels) := by
  induction levels generalizing way entries s s' with
  | zero => exact .nil
  | succ levels ih =>
    rw [live, live]
    rcases h.enter hh hh' hunreadable hname with ⟨more, cause, hway, henter, henter'⟩ |
      ⟨rules, rules', hrules, henter, henter'⟩
    · rw [henter, henter']
      exact .nil
    · rw [henter, henter']
      have hchildren := Place.forall₂_entryAt root root' way entries
      have hany : ((sortedByName (·.1) entries).map (Place.entryAt root' way)).any
          (s'.reports o rules') =
          ((sortedByName (·.1) entries).map (Place.entryAt root way)).any (s.reports o rules) := by
        refine any_eq_of_forall₂ ?_ hchildren
        rintro e e' ⟨child, -, rfl, rfl⟩
        exact h.reports hh hh' hrules child
      have hsub := h.forall₂_subcontexts (o := o) hh hh' hrules
      have hbelow := List.rel_flatMap (List.rel_reverse hsub)
        (fun c c' (hc : ∃ way below, Relocated d d' root root' l l' tree way below c c') => by
          obtain ⟨way, below, hc⟩ := hc
          exact ih hc)
      have hempty := isEmpty_eq_of_forall₂ hbelow
      simp only [Function.swap] at hbelow hempty
      simp only [hany, hempty]
      split
      · exact .cons ⟨way, h.here.isName_way hh.lists, h.here.path, h.there.path⟩ hbelow
      · exact .nil

/-- All that the walks show is the same. -/
theorem forall₂_tree (levels : Nat) :
    List.Forall₂ (Report.Shared o root root') (Context.tree o d o.descends levels root)
      (Context.tree o d' o.descends levels root') := by
  obtain ⟨entries, hroot⟩ := relocated_root (o := o) hh hh'
  have hwalk := forall₂_walk hh hh' hunreadable hname levels hroot
  have hlive := forall₂_live hh hh' hunreadable hname levels hroot
  rw [Context.tree, Context.tree, Options.listing, Options.listing]
  cases o.output with
  | files => exact hwalk
  | directories =>
    refine List.rel_append (List.rel_filter ?_ hwalk) (List.rel_map ?_ hlive)
    · rintro e e' ⟨r, -, rfl, rfl⟩
      cases r with
      | found => exact Iff.rfl
      | failed =>
        simp only [Report.event, Options.failure]
        cases o.onError <;> exact Iff.rfl
    · rintro p p' ⟨way, hway, rfl, rfl⟩
      exact ⟨.found way true, hway, rfl, rfl⟩

end Context

/-! ## Whole walks -/

theorem Report.exists_map_of_forall₂ {o : Options} {root root' : Text} {es es' : List Event}
    (h : List.Forall₂ (Shared o root root') es es') :
    ∃ reports : List Report, (∀ r ∈ reports, ∀ n ∈ r.way, Path.IsName n) ∧
      es = reports.map (event o root) ∧ es' = reports.map (event o root') := by
  induction h with
  | nil => exact ⟨[], by simp, rfl, rfl⟩
  | cons hab _ ih =>
    obtain ⟨r, hway, rfl, rfl⟩ := hab
    obtain ⟨reports, hreports, rfl, rfl⟩ := ih
    exact ⟨r :: reports, List.forall_mem_cons.2 ⟨hway, hreports⟩, rfl, rfl⟩

theorem Report.isFinal_event (o : Options) (root root' : Text) (r : Report) :
    (r.event o root).isFinal = (r.event o root').isFinal := by
  cases r with
  | found => rfl
  | failed =>
    simp only [event, Options.failure]
    cases o.onError <;> rfl

/-- **Relocation.** Where a tree without links stands, and how its root is written, makes no
difference to a walk of it, if the same is unreadable inside of it. The walks report the same files,
directories and errors in the same order, and only the root at the front of the paths differs. -/
theorem Walker.walk_relocated {w : Walker}
    (hname : ∀ name, w.options.ruleFileName = some name → slash ∉ name) {d d' : Disk}
    {root root' : Text} {l l' : Location} {tree : Node} (hh : d.Holds root l tree)
    (hh' : d'.Holds root' l' tree)
    (hunreadable : ∀ m, l' ++ m ∈ d'.unreadable ↔ l ++ m ∈ d.unreadable) :
    ∃ reports : List Report, (∀ r ∈ reports, ∀ n ∈ r.way, Path.IsName n) ∧
      (w.walk d root none).1 = reports.map (Report.event w.options root) ∧
      (w.walk d' root' none).1 = reports.map (Report.event w.options root') := by
  have hlevels : d.root.size < d.root.size + d'.root.size + 1 := by omega
  have hlevels' : d'.root.size < d.root.size + d'.root.size + 1 := by omega
  rw [w.walk_eq_untilFinal hh.wellFormed hlevels root,
    w.walk_eq_untilFinal hh'.wellFormed hlevels' root', Walk.listing, Walk.listing,
    if_pos (Disk.has_of_isDirectory hh.isDirectory), if_pos hh.isDirectory,
    if_pos (Disk.has_of_isDirectory hh'.isDirectory), if_pos hh'.isDirectory]
  obtain ⟨reports, hway, htree, htree'⟩ := Report.exists_map_of_forall₂
    (Context.forall₂_tree hh hh' hunreadable hname (d.root.size + d'.root.size + 1))
  rw [htree, htree']
  obtain ⟨shown, hshown, heq, heq'⟩ :=
    untilFinal_map (Report.isFinal_event w.options root root') reports
  exact ⟨shown, fun r hr => hway r (hshown.subset hr), heq, heq'⟩

/-- A tree in a directory whose name has symbols with a meaning in expressions, walked from inside,
and the same tree as a whole file system. -/
theorem Walker.walk_relocated_whole_file_system :
    let tree : Node := .directory [("a.o", .file []), ("b", .file []),
      ("r", .file (Utf8.encode "/*.o")), ("s", .directory [])]
    let d : Disk := ⟨.directory [("x+", tree)], ["x+"], [["x+", "s"]]⟩
    let d' : Disk := ⟨tree, [], [["s"]]⟩
    let w : Walker := { options := { ruleFileName := some "r" } }
    ∃ reports : List Report, (w.walk d "." none).1 = reports.map (Report.event w.options ".") ∧
      (w.walk d' "/" none).1 = reports.map (Report.event w.options "/") := by
  intro tree d d' w
  have hname : ∀ name, w.options.ruleFileName = some name → slash ∉ name := by
    intro name h
    obtain rfl := Option.some.inj h
    decide
  have habs : d.absolute "." = "/x+" := by cbv
  have habs' : d'.absolute "/" = "/" := by cbv
  have hh : d.Holds "." ["x+"] tree :=
    ⟨by decide, by cbv, by cbv, by rw [habs]; decide, by cbv, rfl, by cbv⟩
  have hh' : d'.Holds "/" [] tree :=
    ⟨by decide, by cbv, by cbv, by rw [habs']; decide, by cbv, rfl, by cbv⟩
  obtain ⟨reports, -, heq, heq'⟩ := walk_relocated hname hh hh' fun m => by
    simp [d, d']
  exact ⟨reports, heq, heq'⟩

end TreeSieve
