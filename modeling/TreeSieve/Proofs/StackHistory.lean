import TreeSieve.Proofs.Ranking

/-!
# What a stack of rules has been through

A stack of rules begins empty, and then rules are pushed, one by one or from the lines of a file,
their numbers are recorded for directories, and directories are left. A file can be unreadable, more
rules can be recorded for a directory than there are on the stack, and everything can be thrown away
and begun anew. Whatever is done (`RuleStack.Operation`), the priorities fall from front to back
(`RuleStack.Ordered.apply`), and what is pushed lies in front of what was there before
(`RuleStack.rules_apply`, `RuleStack.rules_foldl`).

For this reason the first rule that applies is the one with the highest priority
(`Decides.evaluate_eq`), and nothing is missed where the search ends at the first rule that is not
above a floor (`evaluate_eq_keep`, `hasNegatedAbove_iff`).
-/

namespace TreeSieve

/-! ## The deciding rule -/

/-- A rule applies to a path, lies above a floor, and no rule that applies has a higher priority. -/
structure Decides (rules : List RankedRule) (path : Text) (isDirectory : Bool) (floor : Int)
    (r : RankedRule) : Prop where
  mem : r ∈ rules
  applies : r.applies path isDirectory = true
  above : floor < r.priority
  highest : ∀ q ∈ rules, q.applies path isDirectory = true → q.priority ≤ r.priority

/-- Without a rule above the floor that applies, there is nothing to keep a path from being kept. -/
theorem evaluate_eq_keep {rules : List RankedRule} {path : Text} {isDirectory : Bool} {floor : Int}
    (h : ∀ r ∈ rules, r.applies path isDirectory = true → r.priority ≤ floor) :
    evaluate rules path isDirectory floor = (.keep, 0) := by
  induction rules with
  | nil => rfl
  | cons q rest ih =>
    obtain ⟨hq, hrest⟩ := List.forall_mem_cons.1 h
    rw [evaluate]
    split
    · rfl
    · next hfloor =>
      rw [if_neg fun happlies => hfloor (hq happlies), ih hrest]

section Falling

variable {rules : List RankedRule} (hs : rules.Pairwise fun a b => b.priority < a.priority)
  {path : Text} {isDirectory : Bool}

include hs

/-- **The deciding rule is found.** It is not the floor that ends the search, nor another rule. -/
theorem Decides.evaluate_eq {floor : Int} {r : RankedRule}
    (h : Decides rules path isDirectory floor r) :
    evaluate rules path isDirectory floor = (r.verdict, r.priority) := by
  induction rules with
  | nil => cases h.mem
  | cons q rest ih =>
    obtain ⟨hq, hs⟩ := List.pairwise_cons.1 hs
    have hle : r.priority ≤ q.priority := by
      rcases List.mem_cons.1 h.mem with rfl | hr
      · exact Nat.le_refl _
      · exact Nat.le_of_lt (hq r hr)
    have habove := h.above
    rw [evaluate, if_neg (by omega)]
    rcases List.mem_cons.1 h.mem with rfl | hr
    · rw [if_pos h.applies]
    · have hskip : ¬q.applies path isDirectory = true := fun happlies =>
        Nat.not_le.2 (hq r hr) (h.highest q List.mem_cons_self happlies)
      rw [if_neg hskip]
      exact ih hs ⟨hr, h.applies, h.above, fun p hp => h.highest p (List.mem_cons_of_mem q hp)⟩

/-- Where rules above a floor apply, one of them decides. -/
theorem exists_decides {floor : Int} {q : RankedRule} (hq : q ∈ rules)
    (happlies : q.applies path isDirectory = true) (hfloor : floor < q.priority) :
    ∃ r, Decides rules path isDirectory floor r := by
  induction rules with
  | nil => cases hq
  | cons p rest ih =>
    obtain ⟨hp, hs⟩ := List.pairwise_cons.1 hs
    by_cases hfirst : p.applies path isDirectory = true
    · refine ⟨p, List.mem_cons_self, hfirst, ?_, fun r hr _ => ?_⟩
      · rcases List.mem_cons.1 hq with rfl | hq
        · exact hfloor
        · have hlt := hp q hq
          omega
      · rcases List.mem_cons.1 hr with rfl | hr
        · exact Nat.le_refl _
        · exact Nat.le_of_lt (hp r hr)
    · have hq : q ∈ rest := by
        rcases List.mem_cons.1 hq with rfl | hq
        · exact absurd happlies hfirst
        · exact hq
      obtain ⟨r, hr⟩ := ih hs hq
      refine ⟨r, List.mem_cons_of_mem p hr.mem, hr.applies, hr.above, fun r' hr' happ => ?_⟩
      rcases List.mem_cons.1 hr' with rfl | hr'
      · exact absurd happ hfirst
      · exact hr.highest r' hr' happ

/-- The search for a negated rule above a priority finds one anywhere on the stack. -/
theorem hasNegatedAbove_iff {priority : Int} : hasNegatedAbove rules priority = true ↔
    ∃ r ∈ rules, r.rule.negated = true ∧ priority < r.priority := by
  induction rules with
  | nil => simp [hasNegatedAbove]
  | cons q rest ih =>
    obtain ⟨hq, hs⟩ := List.pairwise_cons.1 hs
    rw [hasNegatedAbove]
    split
    · next hle =>
      constructor
      · intro h
        cases h
      · rintro ⟨r, hr, -, hlt⟩
        rcases List.mem_cons.1 hr with rfl | hr
        · omega
        · have hlower := hq r hr
          omega
    · next hgt =>
      rw [Bool.or_eq_true, ih hs, List.exists_mem_cons_iff]
      have habove : priority < q.priority := by omega
      simp [habove]

/-- **A floor hides what it covers and changes nothing else.** -/
theorem evaluate_floor (hpos : ∀ r ∈ rules, 0 < r.priority) (floor : Int) :
    evaluate rules path isDirectory floor =
      if floor < (evaluate rules path isDirectory 0).2 then evaluate rules path isDirectory 0
      else (.keep, 0) := by
  by_cases hany : ∃ q ∈ rules, q.applies path isDirectory = true
  · obtain ⟨q, hq, happlies⟩ := hany
    have hzero : (0 : Int) < q.priority := Int.natCast_pos.2 (hpos q hq)
    obtain ⟨r, hr⟩ := exists_decides hs hq happlies hzero
    rw [hr.evaluate_eq hs]
    split
    · next hlt => exact Decides.evaluate_eq hs ⟨hr.mem, hr.applies, hlt, hr.highest⟩
    · next hle =>
      apply evaluate_eq_keep
      intro p hp happ
      have hhigh := hr.highest p hp happ
      simp only at hle
      omega
  · have hnone : ∀ f : Int, evaluate rules path isDirectory f = (.keep, 0) := fun f =>
      evaluate_eq_keep fun q hq happlies => absurd ⟨q, hq, happlies⟩ hany
    rw [hnone, hnone, ite_self]

end Falling

namespace RuleStack

/-! ## Operations -/

/-- What can be done to a stack. -/
inductive Operation where
  | push (rule : Rule)
  /-- The rules that lines declare in a directory are pushed. -/
  | pushLines (directory : Text) (lines : List Text)
  /-- The rule file of a directory is read, and the rules in it are pushed. It can be unreadable. -/
  | load (directory : Text) (content : Except Fault (List UInt8))
  | record (directory : Text) (count : Int)
  /-- A directory is left. If more rules are recorded for it than there are, all are gone. -/
  | leave (directory : Text)
  | clear

/-- The rules that an operation pushes, in order. -/
def Operation.pushed : Operation → List Rule
  | push rule => [rule]
  | pushLines directory lines => declared directory lines
  | load directory (.ok content) => declared directory (fileLines content)
  | load _ (.error _) | record _ _ | leave _ | clear => []

/-- The stack after an operation. -/
def apply (s : RuleStack) : Operation → RuleStack
  | .push rule => s.push rule
  | .pushLines directory lines => s.pushAll (declared directory lines)
  | .load directory (.ok content) => s.pushAll (declared directory (fileLines content))
  | .load _ (.error _) => s
  | .record directory count => s.record directory count
  | .leave directory => s.leave directory
  | .clear => {}

/-- The stack that operations make of a new one. -/
def after (ops : List Operation) : RuleStack := ops.foldl apply {}

/-! ## What one operation does -/

theorem Ordered.leave {s : RuleStack} (h : s.Ordered) (directory : Text) :
    (s.leave directory).Ordered := by
  have hsub : (s.leave directory).rules.Sublist s.rules := List.drop_sublist _ _
  refine ⟨h.sorted.sublist hsub, fun r hr => h.pos r (hsub.subset hr), fun r hr => ?_⟩
  exact h.le_last r (hsub.subset hr)

/-- Every operation keeps the priorities in order. -/
theorem Ordered.apply {s : RuleStack} (h : s.Ordered) (op : Operation) : (s.apply op).Ordered := by
  cases op with
  | push rule => exact h.push rule
  | pushLines directory lines => exact h.pushAll _
  | load directory content =>
    cases content with
    | ok content => exact h.pushAll _
    | error fault => exact h
  | record directory count => exact h.record directory count
  | leave directory => exact h.leave directory
  | clear => exact .empty

/-- The rules after an operation: those that it pushes, the last one first, and a rear part of those
that were there. These are all still there if something is pushed. -/
theorem rules_apply (s : RuleStack) (op : Operation) :
    ∃ new old, (s.apply op).rules = new ++ old ∧ new.map (·.rule) = op.pushed.reverse ∧
      (∀ r ∈ new, s.lastPriority < r.priority) ∧ old <:+ s.rules ∧
      (op.pushed ≠ [] → old = s.rules) := by
  have hpushed : ∀ rules, ∃ new old, (s.pushAll rules).rules = new ++ old ∧
      new.map (·.rule) = rules.reverse ∧ (∀ r ∈ new, s.lastPriority < r.priority) ∧
      old <:+ s.rules ∧ (rules ≠ [] → old = s.rules) := by
    intro rules
    obtain ⟨new, hrules, hmap, hlt, -⟩ := rules_pushAll s rules
    exact ⟨new, s.rules, hrules, hmap, hlt, List.suffix_rfl, fun _ => rfl⟩
  have hnothing : ∀ old, old <:+ s.rules → ∃ new old', old = new ++ old' ∧
      new.map (·.rule) = ([] : List Rule) ∧ (∀ r ∈ new, s.lastPriority < r.priority) ∧
      old' <:+ s.rules ∧ (([] : List Rule) ≠ [] → old' = s.rules) :=
    fun old hold => ⟨[], old, rfl, rfl, by simp, hold, fun h => absurd rfl h⟩
  cases op with
  | push rule => exact hpushed [rule]
  | pushLines directory lines => exact hpushed _
  | load directory content =>
    cases content with
    | ok content => exact hpushed _
    | error fault => exact hnothing s.rules List.suffix_rfl
  | record directory count => exact hnothing s.rules List.suffix_rfl
  | leave directory => exact hnothing _ (List.drop_suffix _ _)
  | clear => exact hnothing [] List.nil_suffix

/-! ## What many operations do -/

theorem exists_suffix_append {α : Type} {l m n : List α} (h : l <:+ m ++ n) :
    ∃ m' n', l = m' ++ n' ∧ m' <:+ m ∧ n' <:+ n := by
  rw [List.suffix_iff_eq_drop, List.drop_append] at h
  exact ⟨_, _, h, List.drop_suffix _ _, List.drop_suffix _ _⟩

theorem Ordered.foldl {s : RuleStack} (h : s.Ordered) (ops : List Operation) :
    (ops.foldl RuleStack.apply s).Ordered := by
  induction ops generalizing s with
  | nil => exact h
  | cons op ops ih => exact ih (h.apply op)

/-- **Newest first.** After operations, the rules that they have pushed come in front of a rear part
of those that were there before. -/
theorem rules_foldl (s : RuleStack) (ops : List Operation) :
    ∃ new old, (ops.foldl apply s).rules = new ++ old ∧ old <:+ s.rules ∧
      ∀ r ∈ new, ∃ op ∈ ops, r.rule ∈ op.pushed := by
  induction ops generalizing s with
  | nil => exact ⟨[], s.rules, rfl, List.suffix_rfl, by simp⟩
  | cons op ops ih =>
    obtain ⟨new, old, hrules, hold, hnew⟩ := ih (s.apply op)
    obtain ⟨pushed, rest, happly, hmap, -, hrest, -⟩ := rules_apply s op
    rw [happly] at hold
    obtain ⟨left, left', rfl, hleft, hleft'⟩ := exists_suffix_append hold
    refine ⟨new ++ left, left', ?_, hleft'.trans hrest, ?_⟩
    · rw [List.foldl_cons, hrules, List.append_assoc]
    · intro r hr
      rcases List.mem_append.1 hr with hr | hr
      · obtain ⟨op', hop', hmem⟩ := hnew r hr
        exact ⟨op', List.mem_cons_of_mem op hop', hmem⟩
      · refine ⟨op, List.mem_cons_self, ?_⟩
        rw [← List.mem_reverse, ← hmap]
        exact List.mem_map_of_mem (hleft.subset hr)

/-- **The order of a stack.** Whatever has been done to a stack, its priorities fall from front to
back and lie between one and the last that was assigned. What is pushed next gets higher ones, of
several rules the last one the highest, and what is pushed later always stands in front. So a path
gets the verdict and the priority of the rule above the floor that applies to it and has the highest
priority, negated rules above a priority are found wherever they stand, and a floor hides the
verdicts that it covers and nothing else. -/
theorem ordered_after (ops : List Operation) :
    (after ops).Ordered ∧
      (∀ op, ∃ new old, (after (ops ++ [op])).rules = new ++ old ∧
        new.map (·.rule) = op.pushed.reverse ∧
        new.Pairwise (fun a b => b.priority < a.priority) ∧
        (∀ r ∈ new, ∀ q ∈ (after ops).rules, q.priority < r.priority) ∧
        old <:+ (after ops).rules ∧ (op.pushed ≠ [] → old = (after ops).rules)) ∧
      (∀ later, ∃ new old, (after (ops ++ later)).rules = new ++ old ∧ old <:+ (after ops).rules ∧
        ∀ r ∈ new, ∃ op ∈ later, r.rule ∈ op.pushed) ∧
      (∀ path isDirectory floor,
        (∃ r, Decides (after ops).rules path isDirectory floor r ∧
          evaluate (after ops).rules path isDirectory floor =
            (if r.rule.negated then .allow else .drop, r.priority)) ∨
        ((∀ r ∈ (after ops).rules, r.applies path isDirectory = true → r.priority ≤ floor) ∧
          evaluate (after ops).rules path isDirectory floor = (.keep, 0))) ∧
      (∀ priority, hasNegatedAbove (after ops).rules priority = true ↔
        ∃ r ∈ (after ops).rules, r.rule.negated = true ∧ priority < r.priority) ∧
      ∀ path isDirectory (floor : Int),
        evaluate (after ops).rules path isDirectory floor =
          if floor < (evaluate (after ops).rules path isDirectory 0).2 then
            evaluate (after ops).rules path isDirectory 0
          else (.keep, 0) := by
  have ho : ∀ ops, (after ops).Ordered := fun ops => Ordered.empty.foldl ops
  have hs := (ho ops).sorted
  refine ⟨ho ops, fun op => ?_, fun later => ?_, fun path isDirectory floor => ?_,
    fun priority => hasNegatedAbove_iff hs, fun path isDirectory floor => ?_⟩
  · have hstep : after (ops ++ [op]) = (after ops).apply op := by
      rw [after, List.foldl_append]
      rfl
    obtain ⟨new, old, hrules, hmap, hlast, hold⟩ := rules_apply (after ops) op
    rw [hstep]
    refine ⟨new, old, hrules, hmap, ?_, fun r hr q hq => ?_, hold⟩
    · have hsorted := ((ho ops).apply op).sorted
      rw [hrules] at hsorted
      exact (List.pairwise_append.1 hsorted).1
    · exact Nat.lt_of_le_of_lt ((ho ops).le_last q hq) (hlast r hr)
  · rw [after, List.foldl_append]
    exact rules_foldl (after ops) later
  · by_cases hany : ∀ r ∈ (after ops).rules, r.applies path isDirectory = true →
        (r.priority : Int) ≤ floor
    · exact Or.inr ⟨hany, evaluate_eq_keep hany⟩
    · obtain ⟨q, hq, happlies, hfloor⟩ : ∃ q ∈ (after ops).rules,
          q.applies path isDirectory = true ∧ floor < q.priority := by
        simpa using hany
      obtain ⟨r, hr⟩ := exists_decides hs hq happlies hfloor
      exact Or.inl ⟨r, hr, hr.evaluate_eq hs⟩
  · exact evaluate_floor hs (ho ops).pos floor

end RuleStack

end TreeSieve
