import TreeSieve.Proofs.Liveness
import TreeSieve.Proofs.Ranking

/-!
# What the children of a directory amount to

Entering a directory folds over its children. The fold is taken apart here: the frames that it
collects (`frames_foldl_visit`), the events that are no notes (`shown_foldl_visit`) and the
directories that it makes live (`ancestors_foldl_visit`) are each read off the list of children.
-/

namespace TreeSieve

open TreeSieve.Sym

/-! ## Events without notes -/

def Event.isNote : Event → Bool
  | .note _ => true
  | _ => false

/-- Events without the notes for the log. -/
def shown (events : List Event) : List Event := events.filter (!·.isNote)

@[simp] theorem shown_nil : shown [] = [] := rfl

@[simp] theorem shown_append (es fs : List Event) : shown (es ++ fs) = shown es ++ shown fs :=
  List.filter_append ..

theorem shown_notes {notes : List Event} (h : ∀ e ∈ notes, e.isNote = true) : shown notes = [] :=
  List.filter_eq_nil_iff.2 fun e he => by simp [h e he]

theorem shown_onFailure (o : Options) (e : WalkError) : shown (o.onFailure e) = [o.failure e] := by
  unfold Options.onFailure Options.failure
  cases o.onError <;> rfl

namespace Traversal

/-! ## One child -/

section Visit

variable (o : Options) (d : Disk) (t : Traversal) (f : Frame)

/-- The frame of a child that is entered. -/
def subframe? (e : Entry) : Option Frame :=
  if e.isDirectory && o.entersDirectory e.isHidden then (schedule o d t f e (exclusion t f e)).1
  else none

/-- Whether a child is a file that is reported. -/
def survives (e : Entry) : Bool := o.isCandidate e && o.reports (exclusion t f e)

theorem frames_visit (h : Harvest) (e : Entry) :
    (visit o d t f h e).frames = h.frames ++ (subframe? o d t f e).toList := by
  unfold visit subframe?
  cases e.isDirectory with
  | true => cases o.entersDirectory e.isHidden <;> simp
  | false =>
    simp only [Bool.false_eq_true, ↓reduceIte, Bool.false_and, Option.toList_none, List.append_nil]
    cases o.output <;> simp only <;> repeat' split
    all_goals rfl

theorem shown_schedule (e : Entry) (p : Nat) : shown (schedule o d t f e p).2 = [] := by
  unfold schedule
  split
  · rfl
  · cases o.depth.filter (· < t.depth) with
    | some limit => rfl
    | none =>
      simp only
      cases (if o.followLinks then d.identity? (Path.join f.absolute e.name) else none).any
        t.active.contains <;> rfl

/-- The frame of a subdirectory that is excluded by the given priority. -/
def frameOf (p : Nat) (q : Place) : Frame :=
  { path := q.path
    absolute := q.absolute
    above := some f.key
    excludedBy := p
    identity := Place.identity? o d q.absolute
    seeded := 0
    entered := false }

theorem schedule_fst {q : Place} (habs : f.absolute = q.absolute) (hactive : t.active = q.active)
    (hdepth : t.depth = q.depth) (e : Entry) (p : Nat) : (schedule o d t f e p).1 =
      if p == 0 || o.ignored || hasNegatedAbove t.rules.rules p then
        (q.below? o d e).map (frameOf o d f p)
      else none := by
  unfold schedule Place.below?
  rw [habs, ← hactive, ← hdepth]
  have hiff : (p ≠ 0 ∧ (!(o.ignored || hasNegatedAbove t.rules.rules p)) = true) ↔
      ¬(p == 0 || o.ignored || hasNegatedAbove t.rules.rules p) = true := by
    by_cases hp : p = 0 <;> simp [hp]
  by_cases hgo : (p == 0 || o.ignored || hasNegatedAbove t.rules.rules p) = true
  · rw [if_neg (fun h => hiff.1 h hgo), if_pos hgo]
    have hany : o.depth.any (· < t.depth) = (o.depth.filter (· < t.depth)).isSome := by
      cases o.depth with
      | none => rfl
      | some limit => by_cases h : limit < t.depth <;> simp [h]
    rw [hany]
    cases o.depth.filter (· < t.depth) with
    | some limit => rfl
    | none =>
      have hid : (if o.followLinks then d.identity? (Path.join q.absolute e.name) else none) =
          Place.identity? o d (Path.join q.absolute e.name) := rfl
      simp only [hid, Option.isSome_none, Bool.false_eq_true, ↓reduceIte]
      by_cases hloop :
          (Place.identity? o d (Path.join q.absolute e.name)).any t.active.contains = true
      · rw [if_pos hloop, if_pos hloop]
        rfl
      · rw [if_neg hloop, if_neg hloop]
        rfl
  · rw [if_pos (hiff.2 hgo), if_neg hgo]

theorem survives_of_isDirectory {e : Entry} (h : e.isDirectory = true) :
    survives o t f e = false := by
  simp [survives, Options.isCandidate, h]

theorem survives_of_isFile {e : Entry} (h : e.isDirectory = false) : survives o t f e =
    (!(o.skipsRuleFile e.name || !o.selectsFile e.isHidden) && o.reports (exclusion t f e)) := by
  simp [survives, Options.isCandidate, h]

theorem shown_visit (h : Harvest) (e : Entry) : shown (visit o d t f h e).events =
    shown h.events ++
      match o.output with
      | .files => if survives o t f e then [Context.result e] else []
      | .directories => [] := by
  unfold visit
  cases hdir : e.isDirectory with
  | true =>
    rw [survives_of_isDirectory o t f hdir]
    cases o.entersDirectory e.isHidden <;> cases o.output <;> simp [shown_schedule]
  | false =>
    rw [survives_of_isFile o t f hdir]
    cases o.skipsRuleFile e.name || !o.selectsFile e.isHidden <;> cases o.output <;>
      simp only [Bool.false_eq_true, ↓reduceIte, Bool.not_true, Bool.not_false, Bool.true_and,
        Bool.false_and, List.append_nil] <;> split <;> try split
    all_goals first | rfl | simp [Context.result, Context.reported, shown, Event.isNote]

theorem ancestors_visit (h : Harvest) (e : Entry) : (visit o d t f h e).ancestors =
      match o.output with
      | .files => h.ancestors
      | .directories => if survives o t f e then h.ancestors.markLive f.key else h.ancestors := by
  unfold visit
  cases hdir : e.isDirectory with
  | true =>
    rw [survives_of_isDirectory o t f hdir]
    cases o.entersDirectory e.isHidden <;> cases o.output <;> rfl
  | false =>
    rw [survives_of_isFile o t f hdir]
    cases o.skipsRuleFile e.name || !o.selectsFile e.isHidden with
    | true => cases o.output <;> rfl
    | false =>
      cases o.output with
      | files =>
        simp only [Bool.false_eq_true, ↓reduceIte]
        split <;> rfl
      | directories =>
        simp only [Bool.false_eq_true, ↓reduceIte, Bool.not_false, Bool.true_and]
        cases hlive : h.ancestors.isLive f.key with
        | true => simp [Ancestors.markLive_of_isLive hlive]
        | false => cases o.reports (exclusion t f e) <;> rfl

/-! ## All children -/

theorem frames_foldl_visit (h : Harvest) (children : List Entry) :
    (children.foldl (visit o d t f) h).frames =
      h.frames ++ children.filterMap (subframe? o d t f) := by
  induction children generalizing h with
  | nil => simp
  | cons e rest ih =>
    rw [List.foldl_cons, ih, frames_visit]
    cases hsub : subframe? o d t f e <;> simp [hsub]

theorem shown_foldl_visit (h : Harvest) (children : List Entry) :
    shown (children.foldl (visit o d t f) h).events = shown h.events ++
      match o.output with
      | .files => (children.filter (survives o t f)).map Context.result
      | .directories => [] := by
  induction children generalizing h with
  | nil => cases o.output <;> simp
  | cons e rest ih =>
    rw [List.foldl_cons, ih, shown_visit]
    cases o.output with
    | files => cases hs : survives o t f e <;> simp [hs]
    | directories => simp

theorem ancestors_foldl_visit (h : Harvest) (children : List Entry) :
    (children.foldl (visit o d t f) h).ancestors =
      match o.output with
      | .files => h.ancestors
      | .directories =>
        if children.any (survives o t f) then h.ancestors.markLive f.key else h.ancestors := by
  induction children generalizing h with
  | nil => cases o.output <;> rfl
  | cons e rest ih =>
    rw [List.foldl_cons, ih, ancestors_visit]
    cases o.output with
    | files => rfl
    | directories =>
      cases hs : survives o t f e with
      | true => simp [hs]
      | false => simp [hs]

end Visit

end Traversal

end TreeSieve
