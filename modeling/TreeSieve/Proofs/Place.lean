import TreeSieve.Event
import TreeSieve.Options
import TreeSieve.Proofs.Following

/-!
# The places that a walk can come to

What a walk knows of a directory before any rule is looked at: its paths, the directories that it
lies in, and how deep it lies. `Place.subdirectory?` says which of the entries of a directory a walk
can go on to, as far as hidden names, the limit on the depth and loops of links matter.

On the way to a directory no directory comes twice, so the way is never longer than the tree is
large. `Shallow o d n p` says that every way on from `p` has fewer than `n` directories;
`shallow_root` bounds the ways from a root by the size of the tree.
-/

namespace TreeSieve

open TreeSieve.Sym

/-- A directory as a walk comes to it. -/
structure Place where
  /-- The path on which the paths of the entries are built. -/
  path : Text
  /-- The absolute path, which is listed and matched. -/
  absolute : Text
  /-- Where this directory and those above it are, if links are followed. -/
  active : List Location
  /-- How many directories are on the way from the root, with this one. -/
  depth : Nat
  deriving DecidableEq

namespace Place

variable (o : Options) (d : Disk)

/-- Where a directory is, if links are followed. -/
def identity? (absolute : Text) : Option Location :=
  if o.followLinks then d.identity? absolute else none

/-- The root of a walk. -/
def root (path : Text) : Place :=
  { path
    absolute := d.absolute path
    active := (identity? o d (d.absolute path)).toList
    depth := 1 }

/-- The place of a subdirectory, unless it lies too deep or is one of the directories that the walk
is in. -/
def below? (p : Place) (e : Entry) : Option Place :=
  if o.depth.any (· < p.depth) then none
  else
    let absolute := Path.join p.absolute e.name
    if (identity? o d absolute).any p.active.contains then none
    else
      some
        { path := e.path
          absolute
          active := (identity? o d absolute).toList ++ p.active
          depth := p.depth + 1 }

/-- The place of an entry that a walk can go on to. -/
def subdirectory? (p : Place) (e : Entry) : Option Place :=
  if e.isDirectory && o.entersDirectory e.isHidden then p.below? o d e else none

/-- The entries of a directory. -/
def scan (p : Place) : Except Fault (List Entry) := d.scan p.absolute p.path o.followLinks

/-- The path of an entry that rules are matched against. -/
def candidate (p : Place) (e : Entry) : Text :=
  let path := Path.trimmed p.absolute ++ slash :: e.name
  if e.isDirectory then path ++ [slash] else path

variable {o d}

/-! ## Subdirectories -/

theorem below?_eq_some {p q : Place} {e : Entry} (h : p.below? o d e = some q) :
    q.path = e.path ∧ q.absolute = Path.join p.absolute e.name ∧ q.depth = p.depth + 1 ∧
      q.active = (identity? o d q.absolute).toList ++ p.active ∧
      (∀ l, identity? o d q.absolute = some l → l ∉ p.active) := by
  unfold below? at h
  split at h
  · cases h
  · simp only at h
    split at h
    · cases h
    · next hloop =>
      obtain rfl := Option.some.inj h
      refine ⟨rfl, rfl, rfl, rfl, fun l hl hmem => hloop ?_⟩
      simp only at hl
      simpa [hl] using hmem

theorem subdirectory?_eq_some {p q : Place} {e : Entry} (h : p.subdirectory? o d e = some q) :
    e.isDirectory = true ∧ p.below? o d e = some q := by
  unfold subdirectory? at h
  split at h
  · next hdir =>
    rw [Bool.and_eq_true] at hdir
    exact ⟨hdir.1, h⟩
  · cases h

/-! ## How deep a walk goes -/

variable (o d) in
/-- Every way on from a place has fewer directories than the given number. -/
def Shallow : Nat → Place → Prop
  | 0, _ => False
  | n + 1, p => ∀ children, p.scan o d = .ok children → ∀ e ∈ children, ∀ q,
      p.subdirectory? o d e = some q → Shallow n q

/-- A way to a place: the locations of the directories above it, which are all different and
directories of the tree, and from which the place itself differs. -/
structure Way (o : Options) (d : Disk) (above : List Location) (p : Place) : Prop where
  nodup : above.Nodup
  directory : ∀ l ∈ above, (d.root.get? l).any Node.isDirectory = true
  /-- If links are followed, the directories above are among the active ones. -/
  active : o.followLinks = true → ∀ l ∈ above, l ∈ p.active
  /-- The place itself is active too. -/
  here : o.followLinks = true → ∀ l, d.locate p.absolute = .ok l → l ∈ p.active
  fresh : ∀ l, d.locate p.absolute = .ok l → l ∉ above
  /-- Without links, every step of the way goes one name deeper. -/
  deeper : o.followLinks = false → ∀ l, d.locate p.absolute = .ok l →
    ∀ m ∈ above, m.length < l.length

/-- The way goes on to every subdirectory. -/
theorem Way.step (hd : d.WellFormed) {above : List Location} {p q : Place} (h : Way o d above p)
    {children : List Entry} (hscan : p.scan o d = .ok children) {e : Entry} (he : e ∈ children)
    (hq : p.subdirectory? o d e = some q) : ∃ l, Way o d (l :: above) q := by
  obtain ⟨hdir, hbelow⟩ := subdirectory?_eq_some hq
  obtain ⟨-, habs, -, hactive, hloop⟩ := below?_eq_some hbelow
  obtain ⟨l, m, entries, hl, hm, hget, hdeeper⟩ := Disk.locate_subdirectory hd hscan he hdir
  rw [← habs] at hm
  have hid : o.followLinks = true → identity? o d q.absolute = some m := fun hf => by
    simp [identity?, hf, Disk.identity?, hm, Except.toOption]
  have hmid : ∀ k, d.locate q.absolute = .ok k → k = m := fun k hk => by
    rw [hm] at hk
    exact (Except.ok.inj hk).symm
  refine ⟨l, ?_⟩
  constructor
  case nodup => exact List.nodup_cons.2 ⟨h.fresh l hl, h.nodup⟩
  case directory =>
    obtain ⟨l', entries', node, hl', hget', -⟩ := Disk.mem_scan hscan he
    obtain rfl : l' = l := by
      rw [hl] at hl'
      exact (Except.ok.inj hl').symm
    exact List.forall_mem_cons.2 ⟨by rw [hget']; rfl, h.directory⟩
  case active =>
    intro hf
    rw [hactive]
    exact List.forall_mem_cons.2 ⟨List.mem_append_right _ (h.here hf l hl),
      fun k hk => List.mem_append_right _ (h.active hf k hk)⟩
  case here =>
    intro hf k hk
    rw [hactive, hid hf, hmid k hk]
    exact List.mem_cons_self
  case fresh =>
    intro k hk hmem
    rw [hmid k hk] at hmem
    cases hf : o.followLinks with
    -- A directory above is active, and would have been noticed as a loop.
    | true =>
      rcases List.mem_cons.1 hmem with rfl | hmem
      · exact hloop m (hid hf) (h.here hf m hl)
      · exact hloop m (hid hf) (h.active hf m hmem)
    -- The directories above have shorter locations.
    | false =>
      rw [hdeeper hf] at hmem
      rcases List.mem_cons.1 hmem with heq | hmem
      · simp at heq
      · have := h.deeper hf l hl _ hmem
        simp only [List.length_append, List.length_singleton] at this
        omega
  case deeper =>
    intro hf k hk
    rw [hmid k hk, hdeeper hf]
    refine List.forall_mem_cons.2 ⟨by simp, fun j hj => ?_⟩
    have := h.deeper hf l hl j hj
    simp only [List.length_append, List.length_singleton]
    omega

/-- A way can only be as long as the tree is large. -/
theorem Way.shallow (hd : d.WellFormed) (n : Nat) {above : List Location} {p : Place}
    (h : Way o d above p) (hn : d.root.size < above.length + n) : Shallow o d n p := by
  induction n generalizing above p with
  | zero =>
    have := Node.length_le_size h.nodup fun l hl => by
      obtain ⟨node, hnode, -⟩ := (Option.any_eq_true _ _).1 (h.directory l hl)
      exact Option.isSome_iff_exists.2 ⟨node, hnode⟩
    omega
  | succ n ih =>
    intro children hscan e he q hq
    obtain ⟨l, hway⟩ := h.step hd hscan he hq
    exact ih hway (by simp only [List.length_cons]; omega)

/-- There is no directory above a root. -/
theorem way_root (o : Options) (d : Disk) (path : Text) : Way o d [] (root o d path) := by
  refine ⟨List.nodup_nil, by simp, by simp, ?_, by simp, by simp⟩
  intro hf l hl
  replace hl : d.locate (d.absolute path) = .ok l := hl
  simp [root, identity?, hf, Disk.identity?, hl, Except.toOption]

/-- **Depth of a walk**: every way from a root has at most as many directories as there are
nodes. -/
theorem shallow_root (hd : d.WellFormed) (path : Text) {n : Nat} (hn : d.root.size < n) :
    Shallow o d n (root o d path) :=
  (way_root o d path).shallow hd n (by simpa using hn)

end Place

end TreeSieve
