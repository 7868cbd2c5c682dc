import TreeSieve.Proofs.PathNames

/-!
# Paths that lead on

`Path.below p way` is the path on which names lead on from a path, each joined to the one before.
Its names are those of the path and then those of the way (`Path.names_below`).

An absolute form ends in a slash only if it has nothing but slashes (`Path.IsForm`). So behind every
absolute form but `//`, a way is written with one slash before each name
(`Path.IsForm.trimmed_below`). The text that is added depends on the way alone, and this is what
makes rules independent of the place where their directory stands.
-/

namespace TreeSieve

open TreeSieve.Sym

namespace Path

/-- The path on which names lead on from a path. -/
def below (p : Text) (way : List Text) : Text := way.foldl join p

@[simp] theorem below_nil (p : Text) : below p [] = p := rfl

theorem below_cons (p name : Text) (way : List Text) :
    below p (name :: way) = below (join p name) way := rfl

@[simp] theorem below_concat (p : Text) (way : List Text) (name : Text) :
    below p (way ++ [name]) = join (below p way) name := by
  rw [below, List.foldl_append]
  rfl

/-! ## The names on the way -/

section Way

variable {way : List Text} (hway : ∀ name ∈ way, IsName name)

include hway

theorem filter_pieces_below (p : Text) (f : Text → Bool) (h0 : f [] = false)
    (h1 : ∀ name ∈ way, f name = true) :
    (Text.pieces slash (below p way)).filter f = (Text.pieces slash p).filter f ++ way := by
  induction way generalizing p with
  | nil => exact (List.append_nil _).symm
  | cons name way ih =>
    obtain ⟨hname, hway⟩ := List.forall_mem_cons.1 hway
    obtain ⟨hf, hrest⟩ := List.forall_mem_cons.1 h1
    rw [below_cons, ih hway _ hrest, filter_pieces_join hname p f h0 hf, List.append_assoc]
    rfl

theorem names_below (p : Text) : names (below p way) = names p ++ way :=
  filter_pieces_below hway p _ (by simp) fun name hname => by
    simp [(hway name hname).1, (hway name hname).2.1]

theorem isAbsolute_below (p : Text) : isAbsolute (below p way) = isAbsolute p := by
  induction way generalizing p with
  | nil => rfl
  | cons name way ih =>
    obtain ⟨hname, hway⟩ := List.forall_mem_cons.1 hway
    rw [below_cons, ih hway, isAbsolute_join hname]

theorem getLast?_below (p : Text) (hne : way ≠ []) : (below p way).getLast? ≠ some slash := by
  rw [← List.dropLast_append_getLast hne, below_concat]
  exact getLast?_join (hway _ (List.getLast_mem hne)) _

/-- The steps to a place below a directory are those to the directory and the way on. -/
theorem steps_below (p : Text) (hne : way ≠ []) : Disk.steps (below p way) =
    (Text.pieces slash p).filter (· ≠ []) ++ way := by
  rw [Disk.steps, if_neg (getLast?_below hway p hne)]
  exact filter_pieces_below hway p _ (by simp) fun name hname => by simp [(hway name hname).1]

end Way

/-! ## Slashes at the end -/

/-- A path is its trimmed form with slashes at the end. -/
theorem exists_trimmed_append (p : Text) :
    ∃ slashes, p = trimmed p ++ slashes ∧ ∀ s ∈ slashes, s = slash :=
  ⟨p.rtakeWhile (· = slash), List.rdropWhile_append_rtakeWhile.symm, fun s hs => by
    simpa using List.mem_rtakeWhile_imp hs⟩

theorem getLast?_trimmed (p : Text) : (trimmed p).getLast? ≠ some slash := by
  intro h
  have hne : p.rdropWhile (· = slash) ≠ [] := by
    intro hnil
    have htrim : trimmed p = [] := hnil
    rw [htrim] at h
    cases h
  have hlast := List.getLast?_eq_some_getLast hne
  have hnot := List.rdropWhile_last_not _ _ hne
  rw [Option.some.inj (hlast.symm.trans h)] at hnot
  simp at hnot

/-- The last name decides how a text of joined names ends. -/
theorem getLast?_joinWith {ns : List Text} (hne : ns ≠ []) (hns : ∀ n ∈ ns, n ≠ []) :
    (Text.joinWith [slash] ns).getLast? = (ns.getLast hne).getLast? := by
  induction ns with
  | nil => exact absurd rfl hne
  | cons n ns ih =>
    cases ns with
    | nil => simp [Text.joinWith]
    | cons m ns =>
      have hrest := ih (List.cons_ne_nil m ns) fun n hn => hns n (List.mem_cons_of_mem _ hn)
      have hsplit : Text.joinWith [slash] (n :: m :: ns) =
          n ++ slash :: Text.joinWith [slash] (m :: ns) := by
        simp [Text.joinWith, List.intercalate]
      have hlast : (m :: ns).getLast (List.cons_ne_nil m ns) ≠ [] :=
        hns _ (List.mem_cons_of_mem _ (List.getLast_mem _))
      have hrestne : Text.joinWith [slash] (m :: ns) ≠ [] := by
        intro hnil
        rw [hnil] at hrest
        exact hlast (List.getLast?_eq_none_iff.1 hrest.symm)
      rw [hsplit, List.getLast?_append_of_ne_nil _ (List.cons_ne_nil _ _),
        List.getLast?_cons_of_ne_nil hrestne, hrest, List.getLast_cons (List.cons_ne_nil m ns)]

theorem joinWith_ne_nil {ns : List Text} (hne : ns ≠ []) (hns : ∀ n ∈ ns, n ≠ []) :
    Text.joinWith [slash] ns ≠ [] := by
  intro hnil
  have hlast := getLast?_joinWith hne hns
  rw [hnil] at hlast
  exact hns _ (List.getLast_mem hne) (List.getLast?_eq_none_iff.1 hlast.symm)

/-! ## Absolute forms -/

theorem mem_climb {passed ns : List Text} {n : Text} (h : n ∈ climb passed ns) :
    n ∈ passed ∨ n ∈ ns := by
  fun_induction climb passed ns with
  | case1 passed => exact Or.inl (List.mem_reverse.1 h)
  | case2 passed rest ih =>
    rcases ih h with hp | hr
    · exact Or.inl (List.mem_of_mem_tail hp)
    · exact Or.inr (List.mem_cons_of_mem _ hr)
  | case3 passed name rest _ ih =>
    rcases ih h with hp | hr
    · rcases List.mem_cons.1 hp with rfl | hp
      · exact Or.inr List.mem_cons_self
      · exact Or.inl hp
    · exact Or.inr (List.mem_cons_of_mem _ hr)

section Absolute

variable {workingDirectory : Text} (hwd : isAbsolute workingDirectory = true) (p : Text)

include hwd

theorem isAbsolute_join_of_isAbsolute : isAbsolute (join workingDirectory p) = true := by
  rw [join]
  split
  · assumption
  · obtain ⟨t, rfl⟩ := List.head?_eq_some_iff.1 (by simpa [isAbsolute] using hwd)
    split <;> rfl

/-- An absolute form is one slash or two and then names. -/
theorem absolute_eq : ∃ front ns, (front = [slash] ∨ front = [slash, slash]) ∧
    (∀ n ∈ ns, n ≠ [] ∧ slash ∉ n) ∧
    absolute workingDirectory p = front ++ Text.joinWith [slash] ns := by
  have habs := isAbsolute_join_of_isAbsolute hwd p
  have hfront : anchor (join workingDirectory p) ≠ [] := by
    obtain ⟨t, ht⟩ := List.head?_eq_some_iff.1 (by simpa [isAbsolute] using habs)
    rw [ht, anchor, List.takeWhile_cons_of_pos (by simp), List.length_cons]
    split <;> simp_all
  refine ⟨anchor (join workingDirectory p), climb [] (names (join workingDirectory p)),
    (anchor_eq _).resolve_left hfront, fun n hn => ?_, ?_⟩
  · have hname := isName_of_mem_names ((mem_climb hn).resolve_left List.not_mem_nil)
    exact ⟨hname.1, hname.2.2⟩
  · rw [absolute, ofNames]
    split
    · next hnil => exact absurd (List.append_eq_nil_iff.1 hnil).1 hfront
    · rfl

theorem isAbsolute_absolute : isAbsolute (absolute workingDirectory p) = true := by
  obtain ⟨front, ns, rfl | rfl, -, heq⟩ := absolute_eq hwd p <;> rw [heq] <;> rfl

/-- Only an absolute form that has no names ends in a slash. -/
theorem eq_of_absolute_getLast? (h : (absolute workingDirectory p).getLast? = some slash) :
    absolute workingDirectory p = [slash] ∨ absolute workingDirectory p = [slash, slash] := by
  obtain ⟨front, ns, hfront, hns, heq⟩ := absolute_eq hwd p
  rw [heq] at h ⊢
  by_cases hne : ns = []
  · subst hne
    have hnil : Text.joinWith [slash] [] = [] := rfl
    rwa [hnil, List.append_nil]
  · have hnames : ∀ n ∈ ns, n ≠ [] := fun n hn => (hns n hn).1
    rw [List.getLast?_append_of_ne_nil _ (joinWith_ne_nil hne hnames),
      getLast?_joinWith hne hnames] at h
    exact absurd (List.mem_of_getLast? h) (hns _ (List.getLast_mem hne)).2

end Absolute

/-- An absolute path that ends in a slash only if it is `/` or `//`, as absolute forms do. -/
structure IsForm (p : Text) : Prop where
  isAbsolute : Path.isAbsolute p = true
  eq_of_slash : p.getLast? = some slash → p = [slash] ∨ p = [slash, slash]

theorem isForm_absolute {workingDirectory : Text} (hwd : Path.isAbsolute workingDirectory = true)
    (p : Text) : IsForm (absolute workingDirectory p) :=
  ⟨isAbsolute_absolute hwd p, eq_of_absolute_getLast? hwd p⟩

namespace IsForm

variable {p : Text} (h : IsForm p)

include h

theorem ne_nil : p ≠ [] := by
  rintro rfl
  cases h.isAbsolute

section Join

variable {name : Text} (hname : IsName name)

include hname

theorem join : IsForm (Path.join p name) :=
  ⟨by rw [isAbsolute_join hname, h.isAbsolute], fun hlast => absurd hlast (getLast?_join hname p)⟩

/-- Except in `//`, a name is joined to the path with one slash in front. -/
theorem join_eq (hp : p ≠ [slash, slash]) : Path.join p name = trimmed p ++ slash :: name := by
  have hne := h.ne_nil
  rw [join_isName hname]
  by_cases hlast : p.getLast? = some slash
  · rw [(h.eq_of_slash hlast).resolve_right hp]
    rfl
  · rw [trimmed_of_getLast? hlast, if_neg (by tauto)]

end Join

variable {way : List Text} (hway : ∀ name ∈ way, IsName name)

include hway

theorem below : IsForm (Path.below p way) := by
  induction way generalizing p with
  | nil => exact h
  | cons name way ih =>
    obtain ⟨hname, hway⟩ := List.forall_mem_cons.1 hway
    exact ih (h.join hname) hway

/-- Except in `//`, every name on a way has one slash in front. -/
theorem trimmed_below (hp : p ≠ [slash, slash]) :
    trimmed (Path.below p way) = trimmed p ++ way.flatMap (slash :: ·) := by
  induction way using List.reverseRecOn with
  | nil => exact (List.append_nil _).symm
  | append_singleton way name ih =>
    have hname : IsName name := hway name (by simp)
    have hway' : ∀ name ∈ way, IsName name := fun n hn => hway n (List.mem_append_left _ hn)
    have hne : Path.below p way ≠ [slash, slash] := by
      by_cases hnil : way = []
      · rwa [hnil]
      · intro heq
        refine getLast?_below hway' p hnil ?_
        rw [heq]
        rfl
    rw [below_concat, trimmed_join hname, (h.below hway').join_eq hname hne, ih hway',
      List.flatMap_append, List.append_assoc]
    simp

end IsForm

end Path

theorem Disk.isAbsolute_workingPath (d : Disk) : Path.isAbsolute d.workingPath = true := rfl

theorem Disk.isForm_absolute (d : Disk) (p : Text) : Path.IsForm (d.absolute p) :=
  Path.isForm_absolute d.isAbsolute_workingPath p

end TreeSieve
