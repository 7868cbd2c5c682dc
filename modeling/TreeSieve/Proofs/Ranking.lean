import TreeSieve.Proofs.Context
import TreeSieve.Traversal

/-!
# Priorities stand for positions

On the stack of a traversal the priorities fall from front to back (`RuleStack.Ordered`), so the
rules above a priority are a front part of the stack (`above`). A priority with which a directory is
excluded thus stands for the rules that outrank the excluding one, whatever numbers the rules have:
`Agrees` relates it to a `Standing`, and `Agrees.judge` says that both go on agreeing about the
entries of a directory.
-/

namespace TreeSieve

/-! ## Rules above a priority -/

/-- The rules above a priority. -/
def above (rules : List RankedRule) (priority : Nat) : List RankedRule :=
  rules.takeWhile (priority < ·.priority)

theorem above_cons (r : RankedRule) (rest : List RankedRule) (priority : Nat) :
    above (r :: rest) priority =
      if priority < r.priority then r :: above rest priority else [] := by
  simp [above, List.takeWhile_cons]

theorem mem_of_mem_above {rules : List RankedRule} {priority : Nat} {r : RankedRule}
    (h : r ∈ above rules priority) : r ∈ rules :=
  (List.takeWhile_sublist _).subset h

theorem evaluate_eq (rules : List RankedRule) (path : Text) (isDirectory : Bool) (floor : Nat) :
    evaluate rules path isDirectory floor =
      match (above rules floor).find? (·.applies path isDirectory) with
      | none => (.keep, 0)
      | some r => (r.verdict, r.priority) := by
  induction rules with
  | nil => rfl
  | cons r rest ih =>
    rw [evaluate, above_cons]
    by_cases hr : r.priority ≤ floor
    · simp [hr, Nat.not_lt.2 hr]
    · by_cases ha : r.applies path isDirectory = true
      · simp [hr, Nat.not_le.1 hr, ha]
      · simpa [hr, Nat.not_le.1 hr, ha] using ih

theorem hasNegatedAbove_eq (rules : List RankedRule) (priority : Nat) :
    hasNegatedAbove rules priority = (above rules priority).any (·.rule.negated) := by
  induction rules with
  | nil => rfl
  | cons r rest ih =>
    rw [hasNegatedAbove, above_cons]
    by_cases hr : r.priority ≤ priority
    · simp [hr, Nat.not_lt.2 hr]
    · simp [hr, Nat.not_le.1 hr, ih]

theorem judge_eq (rules : List RankedRule) (path : Text) (isDirectory : Bool) (floor : Nat) :
    judge rules path isDirectory floor =
      match (above rules floor).find? (·.applies path isDirectory) with
      | none => floor
      | some r => if r.rule.negated then 0 else r.priority := by
  rw [judge, evaluate_eq]
  cases (above rules floor).find? (·.applies path isDirectory) with
  | none => rfl
  | some r => cases hn : r.rule.negated <;> simp [RankedRule.verdict, hn]

/-- The rules above a higher priority are among those above a lower one. -/
theorem mem_above_of_le {rules : List RankedRule} {p q : Nat} (hpq : p ≤ q) {r : RankedRule}
    (h : r ∈ above rules q) : r ∈ above rules p := by
  induction rules with
  | nil => exact h
  | cons head rest ih =>
    rw [above_cons] at h ⊢
    split at h
    · next hlt =>
      rw [if_pos (Nat.lt_of_le_of_lt hpq hlt)]
      rcases List.mem_cons.1 h with rfl | hrest
      · exact List.mem_cons_self
      · exact List.mem_cons_of_mem _ (ih hrest)
    · cases h

theorem lt_of_mem_above {rules : List RankedRule} {p : Nat} {r : RankedRule}
    (h : r ∈ above rules p) : p < r.priority := by
  simpa using List.mem_takeWhile_imp h

/-- **A floor only rises** where no negated rule is above it, and none is above it then. -/
theorem judge_of_not_hasNegatedAbove {rules : List RankedRule} {p : Nat} (hp : p ≠ 0)
    (hneg : hasNegatedAbove rules p = false) (path : Text) (isDirectory : Bool) :
    judge rules path isDirectory p ≠ 0 ∧
      hasNegatedAbove rules (judge rules path isDirectory p) = false := by
  rw [judge_eq]
  rw [hasNegatedAbove_eq] at hneg
  cases hfind : (above rules p).find? (·.applies path isDirectory) with
  | none =>
    refine ⟨hp, ?_⟩
    rw [hasNegatedAbove_eq]
    exact hneg
  | some r =>
    have hr : r ∈ above rules p := List.mem_of_find?_eq_some hfind
    have hlt : p < r.priority := lt_of_mem_above hr
    have hkeep : r.rule.negated = false := by simpa using List.any_eq_false.1 hneg r hr
    simp only [hkeep, Bool.false_eq_true, ↓reduceIte]
    refine ⟨by omega, ?_⟩
    rw [hasNegatedAbove_eq, List.any_eq_false]
    intro q hq
    exact List.any_eq_false.1 hneg q (mem_above_of_le (Nat.le_of_lt hlt) hq)

/-! ## Stacks with falling priorities -/

namespace RuleStack

/-- The priorities fall from front to back, and all of them have been assigned. -/
structure Ordered (s : RuleStack) : Prop where
  sorted : s.rules.Pairwise fun a b => b.priority < a.priority
  pos : ∀ r ∈ s.rules, 0 < r.priority
  le_last : ∀ r ∈ s.rules, r.priority ≤ s.lastPriority

theorem Ordered.empty : ({} : RuleStack).Ordered :=
  ⟨List.Pairwise.nil, by simp, by simp⟩

theorem Ordered.push {s : RuleStack} (h : s.Ordered) (rule : Rule) : (s.push rule).Ordered := by
  refine ⟨List.pairwise_cons.2 ⟨fun r hr => ?_, h.sorted⟩, List.forall_mem_cons.2 ⟨?_, h.pos⟩,
    List.forall_mem_cons.2 ⟨Nat.le_refl _, fun r hr => ?_⟩⟩
  · exact Nat.lt_succ_of_le (h.le_last r hr)
  · exact Nat.succ_pos _
  · exact Nat.le_succ_of_le (h.le_last r hr)

theorem Ordered.pushAll {s : RuleStack} (h : s.Ordered) (rules : List Rule) :
    (s.pushAll rules).Ordered := by
  induction rules generalizing s with
  | nil => exact h
  | cons r rest ih => exact ih (h.push r)

theorem Ordered.record {s : RuleStack} (h : s.Ordered) (key : Text) (count : Int) :
    (s.record key count).Ordered :=
  ⟨h.sorted, h.pos, h.le_last⟩

/-- Pushing puts new rules in front, the last one first. -/
theorem rules_pushAll (s : RuleStack) (rules : List Rule) :
    ∃ new, (s.pushAll rules).rules = new ++ s.rules ∧ new.map (·.rule) = rules.reverse ∧
      (∀ r ∈ new, s.lastPriority < r.priority) ∧ s.lastPriority ≤ (s.pushAll rules).lastPriority ∧
      (s.pushAll rules).counts = s.counts := by
  induction rules generalizing s with
  | nil => exact ⟨[], by simp [pushAll]⟩
  | cons r rest ih =>
    obtain ⟨new, hnew, hmap, hlt, hle, hcounts⟩ := ih (s.push r)
    refine ⟨new ++ [⟨s.lastPriority + 1, r⟩], ?_, ?_, ?_, ?_, ?_⟩
    · rw [pushAll, List.foldl_cons, ← pushAll, hnew]
      simp [push]
    · simp [hmap]
    · intro q hq
      rcases List.mem_append.1 hq with hq | hq
      · exact Nat.lt_of_succ_lt (hlt q hq)
      · rw [List.mem_singleton.1 hq]
        exact Nat.lt_succ_self _
    · exact Nat.le_of_succ_le hle
    · exact hcounts

end RuleStack

section Ordered

variable {s : RuleStack} (h : s.Ordered)

include h in
theorem above_zero : above s.rules 0 = s.rules :=
  List.takeWhile_eq_self_iff.2 fun r hr => by simpa using h.pos r hr

/-- The rules above a rule are those in front of it. -/
theorem above_of_find? {rules : List RankedRule}
    (hs : rules.Pairwise fun a b => b.priority < a.priority) {floor : Nat}
    {f : RankedRule → Bool} {r : RankedRule} (hr : (above rules floor).find? f = some r) :
    above rules r.priority = (above rules floor).takeWhile (!f ·) := by
  induction rules with
  | nil => simp [above] at hr
  | cons q rest ih =>
    obtain ⟨hq, hs⟩ := List.pairwise_cons.1 hs
    rw [above_cons] at hr
    split at hr
    · next hlt =>
      rw [above_cons, above_cons, if_pos hlt, List.takeWhile_cons]
      by_cases hf : f q = true
      · obtain rfl : q = r := by simpa [hf] using hr
        simp [hf]
      · rw [List.find?_cons, Bool.eq_false_iff.2 hf] at hr
        rw [if_pos (hq r (mem_of_mem_above (List.mem_of_find?_eq_some hr))),
          if_pos (by simpa using hf), ih hs hr]
    · simp at hr

end Ordered

/-! ## Priorities and standings -/

/-- A priority and a standing that mean the same for everything below a directory. Where nothing can
be brought back any more, it does not matter by which rule the directory is excluded. -/
inductive Agrees (rules : List RankedRule) : Nat → Standing → Prop
  | included : Agrees rules 0 .included
  | excluded {p : Nat} (hp : p ≠ 0) : Agrees rules p (.excluded ((above rules p).map (·.rule)))
  | lost {p : Nat} {st : Standing} (hp : p ≠ 0) (hneg : hasNegatedAbove rules p = false)
      (hst : st.IsLost) : Agrees rules p st

namespace Agrees

variable {rules : List RankedRule} {p : Nat} {st : Standing}

theorem isExcluded (h : Agrees rules p st) : st.isExcluded = (p != 0) := by
  cases h with
  | included => rfl
  | excluded hp => simpa [Standing.isExcluded] using hp
  | lost hp hneg hst => simpa [hst.isExcluded] using hp

/-- The rules of a directory's own file come above those that a priority stands for. -/
theorem append (h : Agrees rules p st) {own : List RankedRule} (hown : p ≠ 0 → own = []) :
    Agrees (own ++ rules) p st := by
  by_cases hp : p = 0
  · subst hp
    cases h with
    | included => exact .included
    | excluded hp => exact absurd rfl hp
    | lost hp => exact absurd rfl hp
  · rw [hown hp]
    exact h

/-- Both have the same subdirectories walked. -/
theorem descends (h : Agrees rules p st) (o : Options) :
    o.descends st = (p == 0 || o.ignored || hasNegatedAbove rules p) := by
  cases h with
  | included => simp [Options.descends]
  | excluded hp =>
    rw [hasNegatedAbove_eq, Options.descends, List.any_map, beq_eq_false_iff_ne.2 hp,
      Bool.false_or]
    rfl
  | lost hp hneg hst =>
    rw [hst.descends, hneg, beq_eq_false_iff_ne.2 hp, Bool.false_or, Bool.or_false]

theorem isLost (h : Agrees rules p st) (hp : p ≠ 0) (hneg : hasNegatedAbove rules p = false) :
    st.IsLost := by
  cases h with
  | included => exact absurd rfl hp
  | excluded =>
    intro r hr
    obtain ⟨q, hq, rfl⟩ := List.mem_map.1 hr
    rw [hasNegatedAbove_eq] at hneg
    simpa using List.any_eq_false.1 hneg q hq
  | lost _ _ hst => exact hst

/-- Where nothing can be brought back, everything below stays excluded. -/
theorem judge_lost (h : Agrees rules p st) (hp : p ≠ 0) (hneg : hasNegatedAbove rules p = false)
    (all : List Rule) (path : Text) (isDirectory : Bool) :
    Agrees rules p (st.judge all path isDirectory) :=
  .lost hp hneg ((h.isLost hp hneg).judge all path isDirectory)

/-- Where the same rules are asked, both judge alike. -/
theorem judge_of_consulted {s : RuleStack} (ho : s.Ordered) (h : Agrees s.rules p st)
    (hcons : st.consulted (s.rules.map (·.rule)) = (above s.rules p).map (·.rule)) (path : Text)
    (isDirectory : Bool) : Agrees s.rules (TreeSieve.judge s.rules path isDirectory p)
      (st.judge (s.rules.map (·.rule)) path isDirectory) := by
  rw [judge_eq, Standing.judge, hcons, List.find?_map]
  have hfun : ((fun r : Rule => r.applies path isDirectory) ∘ fun r : RankedRule => r.rule) =
      fun r => r.applies path isDirectory := rfl
  rw [hfun]
  cases hfind : (above s.rules p).find? (·.applies path isDirectory) with
  | none => exact h
  | some r =>
    simp only [Option.map_some]
    cases hn : r.rule.negated with
    | true => exact .included
    | false =>
      -- The rules in front of the deciding one are those with a higher priority.
      have hmem : r ∈ s.rules := mem_of_mem_above (List.mem_of_find?_eq_some hfind)
      have habove : (above s.rules r.priority).map (·.rule) =
          ((above s.rules p).map (·.rule)).takeWhile (!·.applies path isDirectory) := by
        rw [above_of_find? ho.sorted hfind, List.takeWhile_map]
        rfl
      simp only [Bool.false_eq_true, ↓reduceIte, ← habove]
      exact .excluded (Nat.ne_of_gt (ho.pos r hmem))

/-- **Priorities and standings judge alike.** -/
theorem judge {s : RuleStack} (ho : s.Ordered) (h : Agrees s.rules p st) (path : Text)
    (isDirectory : Bool) : Agrees s.rules (TreeSieve.judge s.rules path isDirectory p)
      (st.judge (s.rules.map (·.rule)) path isDirectory) := by
  cases h with
  | included =>
    refine judge_of_consulted ho .included ?_ path isDirectory
    rw [above_zero ho]
    rfl
  | excluded hp => exact judge_of_consulted ho (.excluded hp) rfl path isDirectory
  | lost hp hneg hst =>
    obtain ⟨hp', hneg'⟩ := judge_of_not_hasNegatedAbove hp hneg path isDirectory
    exact .lost hp' hneg' (hst.judge _ path isDirectory)

end Agrees

end TreeSieve
