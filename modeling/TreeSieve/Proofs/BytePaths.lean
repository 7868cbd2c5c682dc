import TreeSieve.Proofs.ByteTexts
import TreeSieve.Proofs.Following

/-!
# Paths of names that are bytes

Paths are put together and cut only at slashes. So a property that a path has exactly if the parts
between its slashes have it is kept by all operations on paths (`Path.Piecewise`). To be read from
bytes is such a property, and to be read from bytes without a NUL is another one.
-/

namespace TreeSieve

open TreeSieve.Sym

theorem Text.joinWith_pieces (sep : Sym) (t : Text) : joinWith [sep] (pieces sep t) = t := by
  induction t with
  | nil => rfl
  | cons c s ih =>
    rw [pieces]
    cases hp : pieces sep s with
    | nil => exact absurd hp (pieces_ne_nil sep s)
    | cons p ps =>
      rw [hp] at ih
      by_cases hc : c = sep
      · rw [if_pos hc, hc, ← ih]
        simp [joinWith, List.intercalate]
      · rw [if_neg hc, ← ih]
        cases ps <;> simp [joinWith, List.intercalate]

namespace Path

/-- A property that a path has if the parts between its slashes have it. -/
structure Piecewise (P : Text → Prop) : Prop where
  nil : P []
  here : P here
  append_slash : ∀ {x y}, P (x ++ slash :: y) ↔ P x ∧ P y

theorem piecewise_isDecoded : Piecewise Text.IsDecoded where
  nil := by decide
  here := by decide
  append_slash := Text.isDecoded_append_cons (by decide)

theorem piecewise_isCString : Piecewise Text.IsCString where
  nil := by decide
  here := by decide
  append_slash := by
    intro x y
    rw [Text.IsCString, piecewise_isDecoded.append_slash, List.mem_append, List.mem_cons]
    simp only [Text.IsCString]
    have hne : nul ≠ slash := by decide
    tauto

namespace Piecewise

variable {P : Text → Prop} (hP : Piecewise P)

include hP

theorem slash_cons {t : Text} : P (slash :: t) ↔ P t :=
  (hP.append_slash (x := [])).trans (and_iff_right hP.nil)

theorem append_slash_nil {t : Text} : P (t ++ [slash]) ↔ P t :=
  hP.append_slash.trans (and_iff_left hP.nil)

theorem joinWith_iff {ts : List Text} : P (Text.joinWith [slash] ts) ↔ ∀ t ∈ ts, P t := by
  induction ts with
  | nil => exact iff_of_true hP.nil (by simp)
  | cons t ts ih =>
    cases ts with
    | nil => simp [Text.joinWith]
    | cons u us =>
      have hjoin : Text.joinWith [slash] (t :: u :: us) =
          t ++ slash :: Text.joinWith [slash] (u :: us) := by
        simp [Text.joinWith, List.intercalate]
      rw [hjoin, hP.append_slash, ih, List.forall_mem_cons (l := u :: us)]

theorem of_mem_pieces {path : Text} (h : P path) : ∀ p ∈ Text.pieces slash path, P p := by
  rw [← Text.joinWith_pieces slash path] at h
  exact hP.joinWith_iff.1 h

/-- What is cut next to a slash has the property in both parts. -/
theorem of_append {x y : Text} (h : P (x ++ y))
    (hcut : x = [] ∨ x.getLast? = some slash ∨ y = [] ∨ y.head? = some slash) : P x ∧ P y := by
  rcases hcut with rfl | hlast | rfl | hhead
  · exact ⟨hP.nil, h⟩
  · obtain ⟨x, rfl⟩ := List.getLast?_eq_some_iff.1 hlast
    rw [List.append_assoc, List.singleton_append, hP.append_slash] at h
    exact ⟨hP.append_slash_nil.2 h.1, h.2⟩
  · exact ⟨by simpa using h, hP.nil⟩
  · obtain ⟨y, rfl⟩ := List.head?_eq_some_iff.1 hhead
    rw [hP.append_slash] at h
    exact ⟨h.1, hP.slash_cons.2 h.2⟩

theorem join {parent path : Text} (hparent : P parent) (hpath : P path) :
    P (Path.join parent path) := by
  rw [Path.join]
  split
  · exact hpath
  · split
    · next hend =>
      rcases hend with rfl | hlast
      · exact hpath
      · obtain ⟨q, rfl⟩ := List.getLast?_eq_some_iff.1 hlast
        rw [List.append_assoc, List.singleton_append]
        exact hP.append_slash.2 ⟨hP.append_slash_nil.1 hparent, hpath⟩
    · exact hP.append_slash.2 ⟨hparent, hpath⟩

theorem names {path : Text} (h : P path) : ∀ name ∈ Path.names path, P name :=
  fun name hname => hP.of_mem_pieces h name (List.mem_of_mem_filter hname)

theorem plain {path : Text} (h : P path) : P (Path.plain path) := by
  have hnames : P (Text.joinWith [slash] (Path.names path)) := hP.joinWith_iff.2 (hP.names h)
  have hall : P (anchor path ++ Text.joinWith [slash] (Path.names path)) := by
    rcases anchor_eq path with ha | ha | ha <;> rw [ha]
    · exact hnames
    · exact hP.slash_cons.2 hnames
    · exact hP.slash_cons.2 (hP.slash_cons.2 hnames)
  rw [Path.plain, ofNames]
  split
  · exact hP.here
  · exact hall

/-- The part of a path up to its last slash, and the name behind it. -/
theorem front_and_lastName {path : Text} (h : P path) :
    P (path.reverse.dropWhile (· ≠ slash)).reverse ∧ P (lastName path) := by
  refine hP.of_append ?_ ?_
  · rwa [lastName, ← List.reverse_append, List.takeWhile_append_dropWhile, List.reverse_reverse]
  · rw [List.getLast?_reverse]
    cases hfront : path.reverse.dropWhile (· ≠ slash) with
    | nil => exact Or.inl rfl
    | cons s rest =>
      have hs := List.head?_dropWhile_not (· ≠ slash) path.reverse
      rw [hfront] at hs
      exact Or.inr (Or.inl (by simpa using hs))

theorem dropEndWhile {t : Text} (h : P t) : P (Text.dropEndWhile (· = slash) t) := by
  refine (hP.of_append (y := (t.reverse.takeWhile (· = slash)).reverse) ?_ ?_).1
  · rwa [Text.dropEndWhile, ← List.reverse_append, List.takeWhile_append_dropWhile,
      List.reverse_reverse]
  · cases hend : (t.reverse.takeWhile (· = slash)).reverse with
    | nil => exact Or.inr (Or.inr (Or.inl rfl))
    | cons s rest =>
      have hs : s ∈ t.reverse.takeWhile (· = slash) := by
        rw [← List.mem_reverse, hend]
        exact List.mem_cons_self
      have hslash : s = slash := by simpa using List.mem_takeWhile_imp hs
      exact Or.inr (Or.inr (Or.inr (congrArg some hslash)))

theorem parent {path : Text} (h : P path) : P (Path.parent path) := by
  have hfront := (hP.front_and_lastName h).1
  rw [Path.parent]
  split
  · exact hfront
  · exact hP.dropEndWhile hfront

end Piecewise

end Path

/-- A text that can stand between slashes: the name of an entry, `.` or `..`. -/
def Text.IsStep (t : Text) : Prop := t ≠ [] ∧ slash ∉ t ∧ t.IsCString

theorem Disk.isStep_of_mem_steps {path : Text} (h : path.IsCString) :
    ∀ step ∈ Disk.steps path, step.IsStep := by
  intro step hstep
  have hpiece : step ∈ (Text.pieces slash path).filter (· ≠ []) → step.IsStep := by
    intro hmem
    obtain ⟨hpiece, hne⟩ := List.mem_filter.1 hmem
    exact ⟨by simpa using hne, Text.not_mem_of_mem_pieces hpiece,
      Path.piecewise_isCString.of_mem_pieces h step hpiece⟩
  rw [Disk.steps] at hstep
  split at hstep
  · rcases List.mem_append.1 hstep with hmem | hhere
    · exact hpiece hmem
    · rw [List.mem_singleton.1 hhere]
      exact ⟨by decide, by decide, Path.piecewise_isCString.here⟩
  · exact hpiece hstep

/-- A text that can be the name of an entry, and is read from bytes. -/
def Text.IsByteName (t : Text) : Prop := Path.IsName t ∧ t.IsDecoded

instance : DecidablePred Text.IsByteName := fun _ => inferInstanceAs (Decidable (_ ∧ _))

theorem Text.IsStep.isByteName {t : Text} (h : t.IsStep) (hhere : t ≠ Path.here)
    (habove : t ≠ Path.above) : t.IsByteName :=
  ⟨⟨h.1, hhere, habove, h.2.1, h.2.2.2⟩, h.2.2.1⟩

end TreeSieve
