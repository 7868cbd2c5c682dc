import TreeSieve.Proofs.Complement
import TreeSieve.Proofs.Ending
import TreeSieve.Proofs.Polarity

/-!
# The order of lines of one polarity

Among lines that all exclude, or that are all negated, the order does not matter
(`Rule.Reordered`), although another rule may then be the one that excludes a directory, and other
rules outrank it. Of these only the ones that some negated rule stands behind can make a difference
below, since what is excluded stays so. So two lists of rules are equivalent above an exclusion if
they are the same up to the order within a polarity and to exclude rules at the end
(`Rule.EquivalentAbove`).

Two walks with reordered patterns and rule files go along side by side: in the same directory
they have the same rules in scope up to the order, and equivalent ones above the exclusion if there
is one (`Context.Equivalent`). They show the same events (`Walker.walk_reordered`).
-/

namespace TreeSieve

/-! ## Rules in another order -/

namespace Rule

/-- Two lists of rules, newest first, that make no difference where they are asked about what lies
below an exclusion that they outrank. -/
inductive EquivalentAbove : List Rule → List Rule → Prop
  /-- Nothing is brought back in either case. -/
  | lost {rules rules' : List Rule} : (∀ r ∈ rules, r.negated = false) →
      (∀ r ∈ rules', r.negated = false) → EquivalentAbove rules rules'
  | cons (r : Rule) {rules rules' : List Rule} : EquivalentAbove rules rules' →
      EquivalentAbove (r :: rules) (r :: rules')
  | swap {r q : Rule} (rules : List Rule) : r.negated = q.negated →
      EquivalentAbove (r :: q :: rules) (q :: r :: rules)
  | trans {rules rules' rules'' : List Rule} : EquivalentAbove rules rules' →
      EquivalentAbove rules' rules'' → EquivalentAbove rules rules''

namespace EquivalentAbove

theorem refl (rules : List Rule) : EquivalentAbove rules rules := by
  induction rules with
  | nil => exact .lost (by simp) (by simp)
  | cons r rules ih => exact .cons r ih

theorem append_left (front : List Rule) {rules rules' : List Rule}
    (h : EquivalentAbove rules rules') :
    EquivalentAbove (front ++ rules) (front ++ rules') := by
  induction front with
  | nil => exact h
  | cons r front ih => exact .cons r ih

/-- Rules of one polarity can stand in any order. -/
theorem of_perm {run run' : List Rule} (hperm : run.Perm run') {negated : Bool}
    (hrun : ∀ r ∈ run, r.negated = negated) (rest : List Rule) :
    EquivalentAbove (run ++ rest) (run' ++ rest) := by
  induction hperm with
  | nil => exact .refl rest
  | cons r _ ih => exact .cons r (ih fun q hq => hrun q (List.mem_cons_of_mem r hq))
  | swap r q run =>
    refine .swap (run ++ rest) ?_
    rw [hrun q List.mem_cons_self, hrun r (List.mem_cons_of_mem q List.mem_cons_self)]
  | trans h _ ih ih' => exact (ih hrun).trans (ih' fun r hr => hrun r (h.mem_iff.2 hr))

variable {rules rules' : List Rule} (h : EquivalentAbove rules rules')

include h

theorem any_negated : rules'.any (·.negated) = rules.any (·.negated) := by
  induction h with
  | @lost rules rules' hrules hrules' =>
    have hnone : ∀ rules : List Rule, (∀ r ∈ rules, r.negated = false) →
        rules.any (·.negated) = false :=
      fun rules hall => List.any_eq_false.2 fun r hr => by simp [hall r hr]
    rw [hnone rules hrules, hnone rules' hrules']
  | cons r _ ih => rw [List.any_cons, List.any_cons, ih]
  | swap _ _ => simp only [List.any_cons, Bool.or_left_comm]
  | trans _ _ ih ih' => rw [ih', ih]

/-- Equivalent rules bring the same back. -/
theorem bringBack (p : Rule → Bool) : Rule.bringBack rules' p = Rule.bringBack rules p := by
  induction h with
  | lost hrules hrules' => rw [bringBack_eq_false hrules, bringBack_eq_false hrules']
  | cons r _ ih => rw [bringBack_cons, bringBack_cons, ih]
  | @swap r q _ hrq =>
    simp only [bringBack_cons, hrq]
    cases p r <;> cases p q <;> rfl
  | trans _ _ ih ih' => rw [ih', ih]

/-- What equivalent rules do not bring back they leave to equivalent rules. -/
theorem takeWhile {p : Rule → Bool} (hnot : Rule.bringBack rules p = false) :
    EquivalentAbove (rules.takeWhile (!p ·)) (rules'.takeWhile (!p ·)) := by
  induction h with
  | lost hrules hrules' =>
    have hsub : ∀ rules : List Rule, ∀ r ∈ rules.takeWhile (!p ·), r ∈ rules :=
      fun rules r hr => (List.takeWhile_sublist _).subset hr
    refine .lost ?_ ?_
    · exact fun r hr => hrules r (hsub _ r hr)
    · exact fun r hr => hrules' r (hsub _ r hr)
  | cons r _ ih =>
    rw [bringBack_cons] at hnot
    rw [List.takeWhile_cons, List.takeWhile_cons]
    cases hr : p r with
    | true => exact .refl []
    | false =>
      rw [hr] at hnot
      exact .cons r (ih hnot)
  | @swap r q rules hrq =>
    -- If one of the two excludes, the other one can remain above, but without effect.
    have halone : ∀ r : Rule, r.negated = false → EquivalentAbove [r] [] ∧ EquivalentAbove [] [r] :=
      fun r hr => ⟨.lost (by simpa using hr) (by simp), .lost (by simp) (by simpa using hr)⟩
    rw [bringBack_cons, bringBack_cons] at hnot
    cases hr : p r <;> cases hq : p q <;>
      simp only [List.takeWhile_cons, hr, hq, Bool.not_true, Bool.not_false, Bool.false_eq_true,
        ↓reduceIte] at hnot ⊢
    · exact .swap _ hrq
    · exact (halone r (hrq.trans hnot)).1
    · exact (halone q (hrq.symm.trans hnot)).2
    · exact .refl []
  | trans h _ ih ih' => exact (ih hnot).trans (ih' ((h.bringBack p).trans hnot))

end EquivalentAbove

/-- Two lists of rules, newest first, that are the same up to an order that does not matter. -/
structure Equivalent (rules rules' : List Rule) : Prop where
  perm : rules.Perm rules'
  above : EquivalentAbove rules rules'

theorem Equivalent.refl (rules : List Rule) : Equivalent rules rules :=
  ⟨.refl rules, .refl rules⟩

end Rule

/-! ## Lines in another order -/

/-- Lines with runs of rules of one polarity permuted. There can be lines in a run that make no
rules. -/
inductive Rule.Reordered : List Text → List Text → Prop
  | permute (before after : List Text) {run run' : List Text} {negated : Bool} :
      (∀ line ∈ run, polarity? line ≠ some (!negated)) → run.Perm run' →
      Reordered (before ++ (run ++ after)) (before ++ (run' ++ after))
  | trans {lines lines' lines'' : List Text} : Reordered lines lines' →
      Reordered lines' lines'' → Reordered lines lines''

namespace Rule.Reordered

theorem refl (lines : List Text) : Reordered lines lines :=
  @permute [] lines [] [] false (by simp) .nil

/-- Two lines that make consecutive rules of one polarity can be exchanged. -/
theorem exchange {a b : Text} {negated : Bool} (ha : polarity? a = some negated)
    (hb : polarity? b = some negated) {between : List Text}
    (hbetween : ∀ line ∈ between, polarity? line = none) (before after : List Text) :
    Reordered (before ++ a :: between ++ b :: after) (before ++ b :: between ++ a :: after) := by
  have hperm : (a :: between ++ [b]).Perm (b :: between ++ [a]) := by
    have hsides : ∀ x y : Text, (x :: between ++ [y]).Perm (x :: y :: between) :=
      fun x y => .cons x (List.perm_append_singleton y between)
    exact (hsides a b).trans ((List.Perm.swap b a between).trans (hsides b a).symm)
  have hrun : ∀ line ∈ a :: between ++ [b], polarity? line ≠ some (!negated) := by
    intro line hline
    rcases List.mem_append.1 hline with hline | hline
    · rcases List.mem_cons.1 hline with rfl | hline
      · simp [ha]
      · simp [hbetween line hline]
    · rw [List.mem_singleton.1 hline]
      simp [hb]
  simpa using permute before after hrun hperm

variable {lines lines' : List Text} (h : Reordered lines lines') (directory : Text)

include h

/-- The rules that reordered lines declare, in front of equivalent ones. -/
theorem declared_append {rest rest' : List Rule} (hrest : Equivalent rest rest') :
    Equivalent ((RuleStack.declared directory lines).reverse ++ rest)
      ((RuleStack.declared directory lines').reverse ++ rest') := by
  induction h generalizing rest rest' with
  | @permute before after run run' negated hrun hperm =>
    have hrules : ∀ r ∈ (RuleStack.declared directory run).reverse, r.negated = negated := by
      intro r hr
      obtain ⟨line, hline, hof⟩ := List.mem_filterMap.1 (List.mem_reverse.1 hr)
      have hpolarity := map_negated_ofLine? directory line
      rw [hof] at hpolarity
      have hne := hrun line hline
      rw [← hpolarity, Option.map_some] at hne
      simpa using hne
    have hreverse : (RuleStack.declared directory run).reverse.Perm
        (RuleStack.declared directory run').reverse :=
      (List.reverse_perm _).trans ((hperm.filterMap _).trans (List.reverse_perm _).symm)
    simp only [RuleStack.declared_append, List.reverse_append, List.append_assoc]
    constructor
    · exact .append_left _ (hreverse.append (.append_left _ hrest.perm))
    · refine .append_left _ ((EquivalentAbove.of_perm hreverse hrules _).trans ?_)
      exact .append_left _ (.append_left _ hrest.above)
  | trans _ _ ih ih' =>
    have hfirst := ih (.refl rest)
    have hsecond := ih' hrest
    exact ⟨hfirst.perm.trans hsecond.perm, hfirst.above.trans hsecond.above⟩

theorem equivalent : Equivalent (RuleStack.declared directory lines).reverse
    (RuleStack.declared directory lines').reverse := by
  simpa using h.declared_append directory (.refl [])

end Rule.Reordered

/-! ## Judgements -/

namespace Standing

/-- What equivalent rules have made of the same file or directory. -/
inductive Equivalent : Standing → Standing → Prop
  | included : Equivalent included included
  | excluded {above above' : List Rule} : Rule.EquivalentAbove above above' →
      Equivalent (excluded above) (excluded above')

namespace Equivalent

variable {s s' : Standing} (h : Equivalent s s')

include h

theorem isExcluded : s'.isExcluded = s.isExcluded := by
  cases h <;> rfl

theorem descends (o : Options) : o.descends s' = o.descends s := by
  cases h with
  | included => rfl
  | excluded habove => rw [Options.descends, Options.descends, habove.any_negated]

/-- **Equivalent rules judge alike**, and equivalently below. -/
theorem judge {rules rules' : List Rule} (hrules : Rule.Equivalent rules rules') (path : Text)
    (isDirectory : Bool) :
    Equivalent (s.judge rules path isDirectory) (s'.judge rules' path isDirectory) := by
  have hexcluded : ∀ {above above' : List Rule}, Rule.EquivalentAbove above above' →
      Equivalent ((Standing.excluded above).judge rules path isDirectory)
        ((Standing.excluded above').judge rules' path isDirectory) := by
    intro above above' habove
    rw [judge_excluded, judge_excluded, habove.bringBack]
    split
    · exact .included
    · next hnot => exact .excluded (habove.takeWhile (by simpa using hnot))
  cases h with
  | included =>
    rw [judge_included, judge_included, hrules.perm.any_eq]
    split
    · exact hexcluded hrules.above
    · exact .included
  | excluded habove => exact hexcluded habove

end Equivalent

end Standing

/-! ## Walks side by side -/

/-- Two file systems that differ only in the order of the lines of their files, as far as it does
not matter. -/
structure Disk.Reordered (d d' : Disk) : Prop where
  resembles : d.Resembles d'
  lines : ∀ l content content', d.root.get? l = some (.file content) →
    d'.root.get? l = some (.file content') →
      Rule.Reordered (RuleStack.fileLines content) (RuleStack.fileLines content')

/-- File systems in which the lines of one file of the topmost directory are reordered. -/
theorem Disk.Reordered.of_entry (before after : List (Text × Node)) {name : Text}
    (hname : before.lookup name = none) {content content' : List UInt8}
    (h : Rule.Reordered (RuleStack.fileLines content) (RuleStack.fileLines content'))
    (workingDirectory : Location) (unreadable : List Location) :
    Disk.Reordered
      ⟨.directory (before ++ (name, .file content) :: after), workingDirectory, unreadable⟩
      ⟨.directory (before ++ (name, .file content') :: after), workingDirectory, unreadable⟩ := by
  refine ⟨⟨rfl, rfl, fun l => ?_⟩, fun l c c' hc hc' => ?_⟩
  · cases l with
    | nil => rfl
    | cons n rest =>
      rw [Node.get?_directory_cons, Node.get?_directory_cons, Node.lookup_middle hname,
        Node.lookup_middle hname]
      split
      · cases rest <;> rfl
      · rfl
  · cases l with
    | nil => cases hc
    | cons n rest =>
      rw [Node.get?_directory_cons, Node.lookup_middle hname] at hc hc'
      split at hc
      · next hn =>
        rw [if_pos hn] at hc'
        cases rest with
        | nil =>
          cases hc
          cases hc'
          exact h
        | cons _ _ => cases hc
      · next hn =>
        rw [if_neg hn, hc] at hc'
        cases hc'
        exact .refl _

/-- A file that can be read in the one can be read in the other. -/
theorem Disk.Reordered.read {d d' : Disk} (h : d.Reordered d') {p : Text}
    (hfile : d.isFile p = true) : match d.read p with
    | .error fault => d'.read p = .error fault
    | .ok content => ∃ content', d'.read p = .ok content' ∧
      Rule.Reordered (RuleStack.fileLines content) (RuleStack.fileLines content') := by
  obtain ⟨l, content, hl, hget, hread⟩ := read_of_isFile hfile
  rw [← h.resembles.isFile] at hfile
  obtain ⟨l', content', hl', hget', hread'⟩ := read_of_isFile hfile
  obtain rfl : l' = l := by
    rw [h.resembles.locate, hl] at hl'
    exact (Except.ok.inj hl').symm
  rw [hread, hread', h.resembles.unreadable]
  by_cases hun : l' ∈ d.unreadable
  · simp only [if_pos hun]
  · simp only [if_neg hun]
    exact ⟨content', rfl, h.lines l' content content' hget hget'⟩

namespace Context

variable {o : Options} {d d' : Disk}

/-- A directory as walks with equivalent rules come to it. -/
structure Equivalent (c c' : Context) : Prop where
  place : c'.place = c.place
  rules : Rule.Equivalent c.rules c'.rules
  standing : Standing.Equivalent c.standing c'.standing

variable (hd : d.WellFormed) (hd' : d'.WellFormed) (h : d.Reordered d')

section Equivalent

variable {c c' : Context} (hc : Equivalent c c')

include h hc in
/-- The rules of a directory's own file, in front of those from above. -/
theorem Equivalent.ownRules : match c.ownRules o d with
    | .error e => c'.ownRules o d' = .error e
    | .ok own => ∃ own', c'.ownRules o d' = .ok own' ∧
      Rule.Equivalent (own ++ c.rules) (own' ++ c'.rules) := by
  rw [Context.ownRules, Context.ownRules, hc.place, hc.standing.isExcluded, Place.ownRules,
    Place.ownRules]
  cases o.ruleFileName with
  | none => exact ⟨[], rfl, hc.rules⟩
  | some name =>
    cases c.standing.isExcluded with
    | true => exact ⟨[], rfl, hc.rules⟩
    | false =>
      simp only [Bool.false_eq_true, ↓reduceIte, h.resembles.isFile]
      cases hfile : d.isFile (Path.join c.place.absolute name) with
      | false => exact ⟨[], rfl, hc.rules⟩
      | true =>
        have hread := h.read hfile
        cases hcontent : d.read (Path.join c.place.absolute name) with
        | error fault =>
          rw [hcontent] at hread
          rw [hread]
          rfl
        | ok content =>
          rw [hcontent] at hread
          obtain ⟨content', hcontent', hlines⟩ := hread
          rw [hcontent']
          exact ⟨_, rfl, hlines.declared_append _ hc.rules⟩

include hd hd' h hc in
theorem Equivalent.enter : match c.enter o d with
    | .error e => c'.enter o d' = .error e
    | .ok (rules, children) => ∃ rules', c'.enter o d' = .ok (rules', children) ∧
      Rule.Equivalent rules rules' := by
  have hown := hc.ownRules (o := o) h
  rw [Context.enter, Context.enter, hc.place, h.resembles.place_scan o hd hd']
  cases howned : c.ownRules o d with
  | error e =>
    rw [howned] at hown
    rw [hown]
  | ok own =>
    rw [howned] at hown
    obtain ⟨own', howned', hrules⟩ := hown
    rw [howned']
    cases c.place.scan o d with
    | error fault => rfl
    | ok children => exact ⟨_, rfl, hrules⟩

include hc

variable {rules rules' : List Rule} (hrules : Rule.Equivalent rules rules')

include hrules

theorem Equivalent.judge (e : Entry) :
    Standing.Equivalent (c.judge rules e) (c'.judge rules' e) := by
  rw [Context.judge, Context.judge, hc.place]
  exact hc.standing.judge hrules _ _

theorem Equivalent.reports : c'.reports o rules' = c.reports o rules := by
  funext e
  rw [Context.reports, Context.reports, (hc.judge hrules e).isExcluded]

include h

theorem Equivalent.below {β : Type} {f f' : Context → List β}
    (hf : ∀ s s', Equivalent s s' → f' s' = f s) (entries : List Entry) :
    (entries.filterMap (c'.subcontext? o d' o.descends rules')).flatMap f' =
      (entries.filterMap (c.subcontext? o d o.descends rules)).flatMap f := by
  apply flatMap_filterMap_congr
  intro e _
  have hjudge := hc.judge hrules e
  rw [subcontext?, subcontext?, hjudge.descends, hc.place, h.resembles.subdirectory?]
  split
  · cases c.place.subdirectory? o d e with
    | none => rfl
    | some place => exact hf _ _ ⟨rfl, hrules, hjudge⟩
  · rfl

end Equivalent

include hd hd' h

theorem walk_of_equivalent (levels : Nat) {c c' : Context} (hc : Equivalent c c') :
    c'.walk o d' o.descends levels = c.walk o d o.descends levels := by
  induction levels generalizing c c' with
  | zero => rfl
  | succ levels ih =>
    have henter := hc.enter (o := o) hd hd' h
    rw [walk, walk]
    cases hscope : c.enter o d with
    | error e =>
      rw [hscope] at henter
      rw [henter]
    | ok scope =>
      obtain ⟨rules, children⟩ := scope
      rw [hscope] at henter
      obtain ⟨rules', hscope', hrules⟩ := henter
      have hbelow := hc.below (o := o) h hrules (fun s s' hs => ih hs) children
      rw [hscope']
      simp only [hc.reports hrules, hbelow]

theorem live_of_equivalent (levels : Nat) {c c' : Context} (hc : Equivalent c c') :
    c'.live o d' o.descends levels = c.live o d o.descends levels := by
  induction levels generalizing c c' with
  | zero => rfl
  | succ levels ih =>
    have henter := hc.enter (o := o) hd hd' h
    rw [live, live]
    cases hscope : c.enter o d with
    | error e =>
      rw [hscope] at henter
      rw [henter]
    | ok scope =>
      obtain ⟨rules, children⟩ := scope
      rw [hscope] at henter
      obtain ⟨rules', hscope', hrules⟩ := henter
      have hbelow := hc.below (o := o) h hrules (fun s s' hs => ih hs) children.reverse
      rw [hscope']
      simp only [hc.reports hrules, ← List.filterMap_reverse, hbelow, hc.place]

theorem tree_reordered {patterns : List Text} (hpatterns : Rule.Reordered o.patterns patterns)
    (levels : Nat) (path : Text) :
    tree (o.withPatterns patterns) d' o.descends levels path =
      tree o d o.descends levels path := by
  have hroot : Equivalent (root o d path) (root (o.withPatterns patterns) d' path) := by
    rw [h.resembles.context_root]
    exact ⟨rfl, hpatterns.equivalent _, .included⟩
  rw [tree, tree, walk_withPatterns, live_withPatterns, walk_of_equivalent hd hd' h levels hroot,
    live_of_equivalent hd hd' h levels hroot]
  rfl

end Context

/-- Patterns in another order judge a root that is no directory alike. -/
theorem Walk.singleFile_reordered {o : Options} {d d' : Disk} (h : d.Resembles d')
    {patterns : List Text} (hpatterns : Rule.Reordered o.patterns patterns) (path : Text) :
    singleFile (o.withPatterns patterns) d' path = singleFile o d path := by
  have hjudge := Standing.Equivalent.included.judge
    (hpatterns.equivalent (Path.parent (d.absolute path))) (d.absolute path) false
  have hsame : singleFile o d path = singleFile (o.withPatterns o.patterns) d path := rfl
  rw [hsame, singleFile_withPatterns, singleFile_withPatterns, h.absolute, hjudge.isExcluded]

/-- **The order of lines of one polarity does not matter.** Where the patterns and the lines of the
rule files are reordered within runs of one polarity, a walk shows the same results and errors in
the same order. -/
theorem Walker.walk_reordered (w : Walker) {d d' : Disk} (hd : d.WellFormed) (hd' : d'.WellFormed)
    (h : d.Reordered d') {patterns : List Text}
    (hpatterns : Rule.Reordered w.options.patterns patterns) (root : Text) :
    ((w.withPatterns patterns).walk d' root none).1 = (w.walk d root none).1 := by
  have hlevels : d.root.size < d.root.size + d'.root.size + 1 := by omega
  have hlevels' : d'.root.size < d.root.size + d'.root.size + 1 := by omega
  have hlisting : Walk.listing (w.options.withPatterns patterns) d'
        (Context.tree (w.options.withPatterns patterns) d' w.options.descends
          (d.root.size + d'.root.size + 1)) root =
      Walk.listing w.options d (Context.tree w.options d w.options.descends
        (d.root.size + d'.root.size + 1)) root := by
    rw [Walk.listing, Walk.listing, h.resembles.has, h.resembles.isDirectory,
      Context.tree_reordered hd hd' h hpatterns,
      Walk.singleFile_reordered h.resembles hpatterns]
    rfl
  rw [walk_eq_untilFinal _ hd' hlevels', walk_eq_untilFinal _ hd hlevels]
  exact congrArg untilFinal hlisting

/-- A directory that two patterns exclude, with two files that a rule file brings back. The patterns
are exchanged, over a comment, and so are the lines of the rule file. -/
theorem Walker.walk_reordered_exchange :
    let d (lines : Text) : Disk := ⟨.directory [("r", .file (Utf8.encode lines)),
      ("x", .directory [("a", .file []), ("b", .file []), ("c", .file [])])], [], []⟩
    let w : Walker :=
      { options := { ruleFileName := some "r", patterns := ["x", "# again", "x/"] } }
    ((w.withPatterns ["x/", "# again", "x"]).walk (d "!b\n!a") "/" none).1 =
      [.result ⟨"/x/a", false⟩, .result ⟨"/x/b", false⟩] := by
  intro d w
  have hpatterns : Rule.Reordered ["x", "# again", "x/"] ["x/", "# again", "x"] := by
    have hcomment : ∀ line ∈ ([("# again" : Text)] : List Text), Rule.polarity? line = none := by
      intro line hline
      rw [List.mem_singleton.1 hline]
      cbv
    have hx : Rule.polarity? "x" = some false := by cbv
    exact Rule.Reordered.exchange hx (by cbv) hcomment [] []
  have hlines : Rule.Reordered (RuleStack.fileLines (Utf8.encode "!a\n!b"))
      (RuleStack.fileLines (Utf8.encode "!b\n!a")) := by
    have hold : RuleStack.fileLines (Utf8.encode "!a\n!b") = ["!a", "!b"] := by cbv
    have hnew : RuleStack.fileLines (Utf8.encode "!b\n!a") = ["!b", "!a"] := by cbv
    have ha : Rule.polarity? "!a" = some true := by cbv
    have hb : Rule.polarity? "!b" = some true := by cbv
    have hbetween : ∀ line ∈ ([] : List Text), Rule.polarity? line = none := by simp
    rw [hold, hnew]
    exact Rule.Reordered.exchange ha hb hbetween [] []
  have hdisk : (d "!a\n!b").Reordered (d "!b\n!a") := .of_entry [] _ rfl hlines [] []
  rw [walk_reordered w (d := d "!a\n!b") (by decide) (by decide) hdisk hpatterns]
  cbv

end TreeSieve
