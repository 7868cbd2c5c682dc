import TreeSieve.Proofs.Below
import TreeSieve.Proofs.Following

/-!
# What is found at the forms of a path

What the system finds at a path does not depend on how the path is written, as far as empty names
and steps that stay in place go. So a path below another one can be followed name by name from where
that one begins (`Disk.find_below`), and its printed form leads to the same place
(`Disk.find_plain_below`).

Removing a `..` together with the name before it is another matter, because the name can be a link.
Without `..` a path and its absolute form lead to the same places (`Disk.find_below_absolute`).
-/

namespace TreeSieve

open TreeSieve.Sym

namespace Disk

/-! ## Steps that make no difference -/

/-- Steps can be taken before others, whatever is sought at the end of these. -/
theorem follow_append_of_ne_nil (d : Disk) (sought : Sought) (links : Nat) (l : Location)
    (s : List Text) : ∃ left, ∀ t, t ≠ [] → d.follow sought links l (s ++ t) =
      (d.follow .target links l s).bind fun m => d.follow sought left m t := by
  fun_induction d.follow .target links l s
  case case1 links l => exact ⟨links, fun t _ => rfl⟩
  case case2 hl ih | case3 hl _ ih =>
    obtain ⟨left, hleft⟩ := ih
    refine ⟨left, fun t ht => ?_⟩
    rw [← hleft t ht, List.cons_append, follow]
    simp [hl]
  case case6 hl hhere habove _ hlook _ _ ih | case7 hl hhere habove _ _ hlook ih =>
    obtain ⟨left, hleft⟩ := ih
    refine ⟨left, fun t ht => ?_⟩
    rw [← hleft t ht, List.cons_append, follow]
    simp [hl, hhere, habove, hlook, ht]
  case case4 hend | case9 hend => simp at hend
  -- Where the first steps fail, the others are never taken.
  case case5 hl hhere habove _ hlook hend =>
    refine ⟨0, fun t ht => ?_⟩
    rw [List.cons_append, follow]
    simp [hl, hhere, habove, hlook, Except.bind, ht]
  case case8 hl hhere habove hlook hlong | case10 hl hhere habove hlook hlong _ =>
    refine ⟨0, fun t ht => ?_⟩
    rw [List.cons_append, follow]
    simp [hl, hhere, habove, hlook, hlong, Except.bind, ht]
  case case11 hl =>
    refine ⟨0, fun t _ => ?_⟩
    rw [List.cons_append, follow]
    split
    · exact absurd ‹_› (hl _)
    · rfl

/-- A step that stays in place makes no difference if it is not the last one. -/
theorem follow_here (d : Disk) (sought : Sought) (links : Nat) (l : Location) {t : List Text}
    (ht : t ≠ []) : d.follow sought links l (Path.here :: t) = d.follow sought links l t := by
  obtain ⟨step, ahead, rfl⟩ := List.exists_cons_of_ne_nil ht
  rw [follow]
  split
  · simp
  · next hnot =>
    rw [follow]
    split
    · exact absurd ‹_› (hnot _)
    · rfl

/-- Steps that stay in place can be left out before others. -/
theorem follow_filter_here (d : Disk) (sought : Sought) (links : Nat) (l : Location) (s : List Text)
    {t : List Text} (ht : t ≠ []) :
    d.follow sought links l (s.filter (· ≠ Path.here) ++ t) = d.follow sought links l (s ++ t) := by
  induction s using List.reverseRecOn generalizing t with
  | nil => rfl
  | append_singleton s x ih =>
    obtain ⟨left, hleft⟩ := follow_append_of_ne_nil d sought links l s
    rw [List.filter_append, List.append_assoc, List.append_assoc]
    by_cases hx : x = Path.here
    · have hnil : [x].filter (· ≠ Path.here) = [] := by simp [hx]
      rw [hnil, List.nil_append, ih ht, hleft t ht, hleft _ (by simp), hx]
      exact congrArg _ (funext fun m => (follow_here d sought left m ht).symm)
    · have hself : [x].filter (· ≠ Path.here) = [x] := by simp [hx]
      rw [hself, ih (by simp)]

/-! ## Steps that follow no link -/

section Step

variable {d : Disk} {l : Location} {entries : List (Text × Node)} {name : Text} {node : Node}
  (hl : d.root.get? l = some (.directory entries)) (hname : Path.IsName name)
  (hm : entries.lookup name = some node)

include hl hname hm

theorem follow_cons (hnode : node.isLink = false) (sought : Sought) (links : Nat)
    (ahead : List Text) :
    d.follow sought links l (name :: ahead) = d.follow sought links (l ++ [name]) ahead := by
  rw [follow]
  cases node <;> simp_all [Path.IsName, Node.isLink]

/-- An entry that is sought itself is found whatever it is. -/
theorem follow_entry (links : Nat) : d.follow .entry links l [name] = .ok (l ++ [name]) := by
  cases hnode : node.isLink with
  | false => rw [follow_cons hl hname hm hnode, follow_nil]
  | true =>
    rw [follow]
    cases node <;> simp_all [Path.IsName, Node.isLink]

end Step

/-- The first step of a way is an entry, and it is no link if the way goes on. -/
theorem exists_lookup_of_get? {root : Node} {l m : Location} {name : Text} {node : Node}
    (h : root.get? (l ++ name :: m) = some node) : ∃ entries child,
      root.get? l = some (.directory entries) ∧ entries.lookup name = some child ∧
        (m ≠ [] → child.isLink = false) ∧ child.get? m = some node := by
  rw [Node.get?_append] at h
  obtain ⟨directory, hl, h⟩ := Option.bind_eq_some_iff.1 h
  cases directory with
  | directory entries =>
    rw [Node.get?_directory_cons] at h
    obtain ⟨child, hlook, hchild⟩ := Option.bind_eq_some_iff.1 h
    refine ⟨entries, child, hl, hlook, fun hne => ?_, hchild⟩
    obtain ⟨x, more, rfl⟩ := List.exists_cons_of_ne_nil hne
    cases child <;> first | rfl | cases hchild
  | _ => cases h

/-- Directories that are no links are gone through without following any. -/
theorem follow_through (d : Disk) (sought : Sought) (links : Nat) {l m : Location}
    {entries : List (Text × Node)} (hm : d.root.get? (l ++ m) = some (.directory entries))
    (hnames : ∀ name ∈ m, Path.IsName name) (ahead : List Text) :
    d.follow sought links l (m ++ ahead) = d.follow sought links (l ++ m) ahead := by
  induction m generalizing l with
  | nil => rw [List.append_nil, List.nil_append]
  | cons name m ih =>
    obtain ⟨hname, hnames⟩ := List.forall_mem_cons.1 hnames
    obtain ⟨siblings, child, hl, hlook, hlink, hchild⟩ := exists_lookup_of_get? hm
    have hnode : child.isLink = false := by
      by_cases hne : m = []
      · subst hne
        obtain rfl : child = .directory entries := by simpa using hchild
        rfl
      · exact hlink hne
    rw [List.append_cons] at hm
    rw [List.cons_append, follow_cons hl hname hlook hnode, ih hm hnames, List.append_assoc]
    rfl

/-- An entry is found below a directory if no link is on the way to it. -/
theorem follow_entry_of_get? {d : Disk} {l m : Location} {name : Text} {node : Node}
    (hget : d.root.get? (l ++ (m ++ [name])) = some node)
    (hnames : ∀ n ∈ m ++ [name], Path.IsName n) (links : Nat) :
    d.follow .entry links l (m ++ [name]) = .ok (l ++ (m ++ [name])) := by
  rw [← List.append_assoc] at hget ⊢
  obtain ⟨entries, child, hl, hlook, -⟩ := exists_lookup_of_get? hget
  rw [follow_through d .entry links hl fun n hn => hnames n (List.mem_append_left _ hn)]
  exact follow_entry hl (hnames name (by simp)) hlook links

/-- How many links may be followed only decides whether there are too many. -/
theorem follow_of_follow {d : Disk} {sought : Sought} {links : Nat} {l m : Location}
    {s : List Text} (h : d.follow sought links l s = .ok m) (links' : Nat) :
    d.follow sought links' l s = .ok m ∨ d.follow sought links' l s = .error .tooManyLinks := by
  fun_induction d.follow sought links l s generalizing links'
  case case1 =>
    rw [follow]
    exact Or.inl h
  case case2 hl ih | case3 hl _ ih =>
    rw [follow]
    simpa [hl] using ih h links'
  case case4 hl hhere habove _ hlook hend =>
    rw [follow]
    simp [hl, hhere, habove, hlook, hend, h]
  case case5 => cases h
  case case6 hl hhere habove _ hlook hend links ih =>
    rw [follow]
    simp only [hl, hhere, habove, hlook, if_neg hend, ↓reduceIte]
    cases links' with
    | zero => exact Or.inr rfl
    | succ links' => exact ih h links'
  case case7 hl hhere habove _ hlink hlook ih =>
    rw [follow]
    simpa [hl, hhere, habove, hlook] using ih h links'
  case case8 => cases h
  case case9 hl hhere habove hlook hlong hend =>
    rw [follow]
    simp [hl, hhere, habove, hlook, hlong, hend, h]
  case case10 => cases h
  case case11 => cases h

end Disk

/-! ## Paths in other forms -/

namespace Text

theorem mem_of_mem_pieces {sep x : Sym} {t p : Text} (hp : p ∈ pieces sep t) (hx : x ∈ p) :
    x ∈ t := by
  induction t generalizing p with
  | nil =>
    obtain rfl : p = [] := by simpa [pieces] using hp
    cases hx
  | cons c s ih =>
    rw [pieces] at hp
    split at hp
    · rcases List.mem_cons.1 hp with rfl | hp
      · cases hx
      · exact List.mem_cons_of_mem _ (ih hp hx)
    · cases hps : pieces sep s with
      | nil => exact absurd hps (pieces_ne_nil sep s)
      | cons q qs =>
        rw [hps] at hp ih
        rcases List.mem_cons.1 hp with rfl | hp
        · rcases List.mem_cons.1 hx with rfl | hx
          · exact List.mem_cons_self
          · exact List.mem_cons_of_mem _ (ih List.mem_cons_self hx)
        · exact List.mem_cons_of_mem _ (ih (List.mem_cons_of_mem _ hp) hx)

theorem mem_joinWith {sep x : Sym} {ts : List Text} (h : x ∈ joinWith [sep] ts) :
    x = sep ∨ ∃ t ∈ ts, x ∈ t := by
  induction ts with
  | nil => cases h
  | cons t ts ih =>
    cases ts with
    | nil =>
      have hself : joinWith [sep] [t] = t := by simp [joinWith]
      exact Or.inr ⟨t, List.mem_cons_self, hself ▸ h⟩
    | cons u us =>
      have hsplit : joinWith [sep] (t :: u :: us) = t ++ sep :: joinWith [sep] (u :: us) := by
        simp [joinWith, List.intercalate]
      rw [hsplit] at h
      rcases List.mem_append.1 h with ht | hrest
      · exact Or.inr ⟨t, List.mem_cons_self, ht⟩
      · rcases List.mem_cons.1 hrest with rfl | hrest
        · exact Or.inl rfl
        · rcases ih hrest with heq | ⟨v, hv, hx⟩
          · exact Or.inl heq
          · exact Or.inr ⟨v, List.mem_cons_of_mem _ hv, hx⟩

end Text

namespace Path

/-! ### Below a path -/

theorem nul_not_mem_below {p : Text} (hp : nul ∉ p) {way : List Text}
    (hway : ∀ name ∈ way, IsName name) : nul ∉ below p way := by
  induction way generalizing p with
  | nil => exact hp
  | cons name way ih =>
    obtain ⟨hname, hway⟩ := List.forall_mem_cons.1 hway
    refine ih ?_ hway
    rw [join_isName hname]
    split <;> simp [hp, hname.2.2.2.2]

theorem below_ne_nil (p : Text) {way : List Text} (hway : ∀ name ∈ way, IsName name)
    (hne : way ≠ []) : below p way ≠ [] := by
  intro hnil
  have hnames := names_below hway p
  have hempty : names [] = [] := rfl
  rw [hnil, hempty] at hnames
  exact hne (List.append_eq_nil_iff.1 hnames.symm).2

/-! ### The printed form -/

theorem names_eq_filter (p : Text) :
    names p = ((Text.pieces slash p).filter (· ≠ [])).filter (· ≠ here) := by
  rw [names, List.filter_filter]
  exact List.filter_congr fun n _ => by simp [Bool.and_comm]

section Plain

variable (p : Text)

theorem anchor_eq_nil_iff : anchor p = [] ↔ isAbsolute p = false := by
  cases p with
  | nil => exact iff_of_true rfl rfl
  | cons c t =>
    by_cases hc : c = slash
    · rw [anchor, List.takeWhile_cons_of_pos (by simpa using hc), List.length_cons, isAbsolute, hc]
      refine iff_of_false ?_ (by simp)
      split <;> simp_all
    · rw [anchor, List.takeWhile_cons_of_neg (by simpa using hc)]
      exact iff_of_true rfl (by simpa [isAbsolute] using hc)

/-- The printed form is written from the slashes in front and the names, if there are any. -/
theorem plain_eq (h : isAbsolute p = true ∨ names p ≠ []) :
    plain p = anchor p ++ Text.joinWith [slash] (names p) := by
  rw [plain, ofNames]
  split
  · next hnil =>
    obtain ⟨hanchor, hjoin⟩ := List.append_eq_nil_iff.1 hnil
    have hrel := (anchor_eq_nil_iff p).1 hanchor
    have hne : names p ≠ [] := h.resolve_left (by rw [hrel]; exact Bool.false_ne_true)
    exact absurd hjoin (joinWith_ne_nil hne fun n hn => (isName_of_mem_names hn).1)
  · rfl

theorem isAbsolute_plain : isAbsolute (plain p) = isAbsolute p := by
  by_cases habs : isAbsolute p = true
  · rw [plain_eq p (Or.inl habs), habs]
    have hne : anchor p ≠ [] := fun hnil => by
      rw [(anchor_eq_nil_iff p).1 hnil] at habs
      cases habs
    rcases (anchor_eq p).resolve_left hne with ha | ha <;> rw [ha] <;> rfl
  · rw [Bool.not_eq_true] at habs
    rw [habs]
    have hanchor := (anchor_eq_nil_iff p).2 habs
    cases hnames : names p with
    | nil =>
      rw [plain, hnames, hanchor]
      rfl
    | cons n ns =>
      obtain ⟨hne, -, hslash⟩ := isName_of_mem_names (hnames ▸ List.mem_cons_self : n ∈ names p)
      obtain ⟨c, t, rfl⟩ := List.exists_cons_of_ne_nil hne
      have hc : c ≠ slash := fun h => hslash (h ▸ List.mem_cons_self)
      rw [plain_eq p (Or.inr (by simp [hnames])), hanchor, hnames]
      cases ns <;> simpa [Text.joinWith, List.intercalate, isAbsolute] using hc

variable {p}

theorem nul_not_mem_plain (hp : nul ∉ p) : nul ∉ plain p := by
  intro h
  have hfront : nul ∉ anchor p ++ Text.joinWith [slash] (names p) := by
    rw [List.mem_append, not_or]
    refine ⟨?_, fun hjoin => ?_⟩
    · rcases anchor_eq p with ha | ha | ha <;> rw [ha] <;> decide
    · rcases Text.mem_joinWith hjoin with heq | ⟨n, hn, hx⟩
      · exact absurd heq (by decide)
      · exact hp (Text.mem_of_mem_pieces (List.mem_of_mem_filter hn) hx)
  rw [plain, ofNames] at h
  split at h
  · exact absurd h (by decide)
  · exact hfront h

/-- The printed form has no step but its names. -/
theorem steps_plain (hne : names p ≠ []) : Disk.steps (plain p) = names p := by
  have hname : ∀ n ∈ names p, n ≠ [] ∧ n ≠ here ∧ slash ∉ n := fun n => isName_of_mem_names
  have hnil : ∀ n ∈ names p, n ≠ [] := fun n hn => (hname n hn).1
  have hend := hname _ (List.getLast_mem hne)
  have hpieces :
      (Text.pieces slash (Text.joinWith [slash] (names p))).filter (· ≠ []) = names p := by
    rw [Text.pieces_joinWith hne fun n hn => (hname n hn).2.2]
    exact List.filter_eq_self.2 fun n hn => by simpa using (hname n hn).1
  have hslash : ∀ t : Text, (Text.pieces slash (slash :: t)).filter (· ≠ []) =
      (Text.pieces slash t).filter (· ≠ []) := fun t => by simp [Text.pieces]
  rw [plain_eq p (Or.inr hne), Disk.steps,
    List.getLast?_append_of_ne_nil _ (joinWith_ne_nil hne hnil), getLast?_joinWith hne hnil,
    if_neg fun h => hend.2.2 (List.mem_of_getLast? h)]
  rcases anchor_eq p with ha | ha | ha <;> rw [ha]
  · exact hpieces
  · exact (hslash _).trans hpieces
  · exact (hslash _).trans ((hslash _).trans hpieces)

end Plain

/-! ### The absolute form -/

theorem climb_of_not_mem {passed ns : List Text} (h : above ∉ ns) :
    climb passed ns = passed.reverse ++ ns := by
  induction ns generalizing passed with
  | nil => exact (List.append_nil _).symm
  | cons n ns ih =>
    rw [List.mem_cons, not_or] at h
    rw [climb, if_neg (Ne.symm h.1), ih h.2, List.reverse_cons, List.append_assoc]
    rfl

theorem names_append_slash (p t : Text) : names (p ++ slash :: t) = names p ++ names t := by
  rw [names, Text.pieces_append_cons, List.filter_append]
  rfl

/-- A relative path adds its names to those of the path that it is joined to. -/
theorem names_join_of_relative (parent : Text) {p : Text} (hp : isAbsolute p = false) :
    names (join parent p) = names parent ++ names p := by
  rw [join, hp, if_neg Bool.false_ne_true]
  split
  · next h =>
    rcases h with rfl | hlast
    · rfl
    · obtain ⟨q, rfl⟩ := List.getLast?_eq_some_iff.1 hlast
      have hq : names (q ++ [slash]) = names q :=
        (names_append_slash q []).trans (List.append_nil _)
      rw [List.append_assoc, List.singleton_append, names_append_slash, hq]
  · exact names_append_slash parent p

theorem nul_not_mem_join {parent p : Text} (hparent : nul ∉ parent) (hp : nul ∉ p) :
    nul ∉ join parent p := by
  rw [join]
  split
  · exact hp
  · split <;> simp [hparent, hp]

/-- Without `..`, the absolute form is the printed form of the path joined to the working
directory. -/
theorem absolute_of_not_mem {workingDirectory p : Text}
    (h : above ∉ names (join workingDirectory p)) :
    absolute workingDirectory p = plain (join workingDirectory p) := by
  rw [absolute, climb_of_not_mem h]
  rfl

end Path

namespace Disk

variable {d : Disk} (sought : Sought) {p : Text}

/-- A path below another one is followed name by name from where that one begins. -/
theorem find_below (hnul : nul ∉ p) {rest : List Text} (hrest : ∀ name ∈ rest, Path.IsName name)
    (hne : rest ≠ []) : d.find sought (Path.below p rest) =
      d.follow sought maxLinks (start p d.workingDirectory) (Path.names p ++ rest) := by
  have hstart : start (Path.below p rest) d.workingDirectory = start p d.workingDirectory := by
    rw [start, start, Path.isAbsolute_below hrest]
  rw [find, if_neg (Path.nul_not_mem_below hnul hrest), if_neg (Path.below_ne_nil p hrest hne),
    hstart, Path.steps_below hrest p hne, Path.names_eq_filter, follow_filter_here _ _ _ _ _ hne]

/-- What is below a path is followed from where the path leads, with the links that are left. -/
theorem exists_find_below {l : Location} (hl : d.locate p = .ok l) : ∃ links, ∀ rest : List Text,
    (∀ name ∈ rest, Path.IsName name) → rest ≠ [] →
      d.find sought (Path.below p rest) = d.follow sought links l rest := by
  obtain ⟨hnul, -, hfollow⟩ := locate_eq_ok hl
  obtain ⟨left, hleft⟩ := follow_append_of_ne_nil d sought maxLinks (start p d.workingDirectory)
    ((Text.pieces slash p).filter (· ≠ []))
  refine ⟨left, fun rest hrest hne => ?_⟩
  rw [find_below sought hnul hrest hne, Path.names_eq_filter, follow_filter_here _ _ _ _ _ hne,
    hleft rest hne, follow_names hfollow]
  rfl

theorem find_plain (hnul : nul ∉ p) (hne : Path.names p ≠ []) : d.find sought (Path.plain p) =
    d.follow sought maxLinks (start p d.workingDirectory) (Path.names p) := by
  have hstart : start (Path.plain p) d.workingDirectory = start p d.workingDirectory := by
    rw [start, start, Path.isAbsolute_plain]
  have hplain : Path.plain p ≠ [] := by
    intro hnil
    have hnames := Path.names_plain p
    rw [hnil] at hnames
    exact hne hnames.symm
  rw [find, if_neg (Path.nul_not_mem_plain hnul), if_neg hplain, hstart, Path.steps_plain hne]

/-- The printed form of a path below another one leads where the path leads. -/
theorem find_plain_below (hnul : nul ∉ p) {rest : List Text}
    (hrest : ∀ name ∈ rest, Path.IsName name) (hne : rest ≠ []) :
    d.find sought (Path.plain (Path.below p rest)) = d.find sought (Path.below p rest) := by
  have hnames := Path.names_below hrest p
  have hnamesne : Path.names (Path.below p rest) ≠ [] := by
    rw [hnames]
    exact List.append_ne_nil_of_right_ne_nil _ hne
  have hstart : start (Path.below p rest) d.workingDirectory = start p d.workingDirectory := by
    rw [start, start, Path.isAbsolute_below hrest]
  rw [find_plain sought (Path.nul_not_mem_below hnul hrest) hnamesne, hnames, hstart,
    find_below sought hnul hrest hne]

/-! ## The absolute form of a path without `..` -/

theorem nul_not_mem_pathOf {l : Location} (hl : ∀ n ∈ l, Path.IsName n) : nul ∉ pathOf l := by
  rw [pathOf, List.mem_cons, not_or]
  refine ⟨by decide, fun h => ?_⟩
  rcases Text.mem_joinWith h with heq | ⟨n, hn, hnul⟩
  · exact absurd heq (by decide)
  · exact (hl n hn).2.2.2.2 hnul

theorem names_pathOf {l : Location} (hl : ∀ n ∈ l, Path.IsName n) : Path.names (pathOf l) = l := by
  rw [pathOf, Path.names_slash_cons]
  exact Path.names_joinWith fun n hn => ⟨(hl n hn).1, (hl n hn).2.1, (hl n hn).2.2.2.1⟩

/-- A relative path has a step. -/
theorem steps_ne_nil {p : Text} (hne : p ≠ []) (hp : Path.isAbsolute p = false) : steps p ≠ [] := by
  obtain ⟨c, t, rfl⟩ := List.exists_cons_of_ne_nil hne
  have hc : c ≠ slash := by
    rintro rfl
    cases hp
  have hpieces : ∃ q qs, Text.pieces slash (c :: t) = (c :: q) :: qs := by
    rw [Text.pieces, if_neg hc]
    split <;> exact ⟨_, _, rfl⟩
  obtain ⟨q, qs, hpieces⟩ := hpieces
  rw [steps, hpieces, List.filter_cons_of_pos (by simp)]
  split <;> simp

/-- A relative path can only lead anywhere if the working directory is a directory. -/
theorem isDirectory_workingDirectory {l : Location} (hl : d.locate p = .ok l)
    (hp : Path.isAbsolute p = false) :
    ∃ entries, d.root.get? d.workingDirectory = some (.directory entries) := by
  obtain ⟨-, hne, hfollow⟩ := locate_eq_ok hl
  obtain ⟨step, ahead, hsteps⟩ := List.exists_cons_of_ne_nil (steps_ne_nil hne hp)
  rw [hsteps, start, hp, if_neg Bool.false_ne_true, follow] at hfollow
  split at hfollow
  · exact ⟨_, ‹_›⟩
  · cases hfollow

theorem WellFormed.isName_of_get? (hd : d.WellFormed) {l : Location} {node : Node}
    (hl : d.root.get? l = some node) : ∀ n ∈ l, Path.IsName n := by
  intro n hn
  obtain ⟨before, after, rfl⟩ := List.append_of_mem hn
  obtain ⟨entries, child, hget, hlook, -⟩ := exists_lookup_of_get? hl
  exact (hd.entries hget).2 _ (Node.mem_of_lookup hlook)

section Absolute

variable (hd : d.WellFormed) {l : Location} (hl : d.locate p = .ok l)
  (habove : Path.above ∉ Path.names p)

include hd hl habove

/-- Without `..`, the names of the absolute form lead where the names of the path lead. -/
theorem follow_absolute : nul ∉ d.absolute p ∧ ∀ rest : List Text,
    d.follow sought maxLinks (start (d.absolute p) d.workingDirectory)
        (Path.names (d.absolute p) ++ rest) =
      d.follow sought maxLinks (start p d.workingDirectory) (Path.names p ++ rest) := by
  obtain ⟨hnul, -, -⟩ := locate_eq_ok hl
  rw [absolute]
  by_cases hp : Path.isAbsolute p = true
  · have hjoin : Path.join d.workingPath p = p := by rw [Path.join, if_pos hp]
    rw [Path.absolute_of_not_mem (by rwa [hjoin]), hjoin, Path.names_plain, start, start,
      Path.isAbsolute_plain]
    exact ⟨Path.nul_not_mem_plain hnul, fun _ => rfl⟩
  · rw [Bool.not_eq_true] at hp
    obtain ⟨entries, hwd⟩ := isDirectory_workingDirectory hl hp
    have hnames := hd.isName_of_get? hwd
    have hjoin : Path.names (Path.join d.workingPath p) = d.workingDirectory ++ Path.names p := by
      rw [Path.names_join_of_relative _ hp, workingPath, names_pathOf hnames]
    have hnot : Path.above ∉ Path.names (Path.join d.workingPath p) := by
      rw [hjoin, List.mem_append, not_or]
      exact ⟨fun h => (hnames _ h).2.2.1 rfl, habove⟩
    rw [Path.absolute_of_not_mem hnot]
    refine ⟨Path.nul_not_mem_plain (Path.nul_not_mem_join (nul_not_mem_pathOf hnames) hnul),
      fun rest => ?_⟩
    have hfrom : start (Path.plain (Path.join d.workingPath p)) d.workingDirectory = [] := by
      rw [start, Path.isAbsolute_plain,
        if_pos (Path.isAbsolute_join_of_isAbsolute d.isAbsolute_workingPath p)]
    rw [hfrom, Path.names_plain, hjoin, List.append_assoc,
      follow_through d sought maxLinks (by rwa [List.nil_append]) hnames, List.nil_append, start,
      hp, if_neg Bool.false_ne_true]

/-- **Absolute forms.** If a path has no `..`, its absolute form leads where the path leads. -/
theorem find_below_absolute {rest : List Text} (hrest : ∀ name ∈ rest, Path.IsName name)
    (hne : rest ≠ []) :
    d.find sought (Path.below (d.absolute p) rest) = d.find sought (Path.below p rest) := by
  obtain ⟨hnul, -, -⟩ := locate_eq_ok hl
  obtain ⟨hnulAbsolute, hfollow⟩ := follow_absolute sought hd hl habove
  rw [find_below sought hnul hrest hne, find_below sought hnulAbsolute hrest hne, hfollow]

end Absolute

end Disk

end TreeSieve
