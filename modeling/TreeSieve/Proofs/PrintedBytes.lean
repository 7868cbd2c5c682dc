import TreeSieve.Proofs.Below
import TreeSieve.Proofs.BytePaths
import TreeSieve.Proofs.LoopHead

/-!
# Printed paths as bytes

The printed form of a path on which names lead on from a root is described here in bytes alone, from
the bytes of the root and of the names (`BytePath.printed`). To read the bytes as texts first, and
to put the path together from these, comes to the same (`BytePath.decode_printed`).
-/

namespace TreeSieve

open TreeSieve.Sym

theorem rdropWhile_append_cons {α : Type} {p : α → Bool} {u v : List α} {s : α} (hs : p s = false)
    (hv : ∀ x ∈ v, p x = true) : (u ++ s :: v).rdropWhile p = u ++ [s] := by
  induction v using List.reverseRecOn with
  | nil => exact List.rdropWhile_concat_neg p u s (by simp [hs])
  | append_singleton v x ih =>
    have hx : p x = true := hv x (by simp)
    rw [← List.cons_append, ← List.append_assoc, List.rdropWhile_concat_pos p _ x hx]
    exact ih fun y hy => hv y (by simp [hy])

namespace Path

/-- A way on from a path does not change how many slashes the path begins with. -/
theorem anchor_below {way : List Text} (hway : ∀ name ∈ way, IsName name) (p : Text) :
    anchor (below p way) = anchor p := by
  induction way generalizing p with
  | nil => rfl
  | cons name way ih =>
    obtain ⟨hname, hway⟩ := List.forall_mem_cons.1 hway
    rw [below_cons, ih hway, anchor_join hname]

/-- A slash at the end of a path that has something else is not printed. -/
theorem plain_trimmed {p : Text} (h : trimmed p ≠ []) : plain (trimmed p) = plain p := by
  obtain ⟨slashes, hp, -⟩ := exists_trimmed_append p
  have hanchor : p.takeWhile (· = Sym.slash) = (trimmed p).takeWhile (· = Sym.slash) := by
    conv_lhs => rw [hp]
    rw [List.takeWhile_append, if_neg]
    intro hlength
    have hall := (List.takeWhile_prefix _).eq_of_length hlength
    rw [List.takeWhile_eq_self_iff] at hall
    have hlast : (trimmed p).getLast h = Sym.slash := by simpa using hall _ (List.getLast_mem h)
    exact getLast?_trimmed p (by rw [List.getLast?_eq_some_getLast h, hlast])
  rw [plain, plain, names_trimmed, anchor, anchor, hanchor]

/-- The path above another one is printed like what comes before its last name. -/
theorem plain_parent (p : Text) : plain (parent p) = plain (p.rdropWhile (· ≠ Sym.slash)) := by
  rw [parent]
  split
  · rfl
  · next stem hstem =>
    exact plain_trimmed (p := p.rdropWhile (· ≠ Sym.slash)) hstem

end Path

namespace BytePath

/-- The byte of a slash. -/
abbrev slash : UInt8 := 0x2F

/-- The slashes that a path begins with, in printed form. Exactly two stay two. -/
def anchor (path : List UInt8) : List UInt8 :=
  match (path.takeWhile (· = slash)).length with
  | 0 => []
  | 2 => [slash, slash]
  | _ => [slash]

/-- The names of a path, without the empty ones and `.`. -/
def names (path : List UInt8) : List (List UInt8) :=
  (path.splitOn slash).filter fun name => name ≠ [] && name ≠ [0x2E]

/-- The printed form of the path on which names lead on from a root. -/
def printed (root : List UInt8) (way : List (List UInt8)) : List UInt8 :=
  match anchor root ++ [slash].intercalate (names root ++ way) with
  | [] => [0x2E]
  | path => path

/-- A path up to its last slash. -/
def front (path : List UInt8) : List UInt8 := path.rdropWhile (· ≠ slash)

open Utf8

/-! ## Slashes -/

theorem decode_append_slash (x y : List UInt8) :
    decode (x ++ slash :: y) = decode x ++ Sym.slash :: decode y :=
  decode_append_cons (c := '/') (by decide) x y

theorem slash_mem_decode {bytes : List UInt8} : Sym.slash ∈ decode bytes ↔ slash ∈ bytes :=
  mem_decode_iff (c := '/') (by decide) bytes

theorem decode_eq_iff {bytes bytes' : List UInt8} : decode bytes = decode bytes' ↔ bytes = bytes' :=
  ⟨fun h => by rw [← encode_decode bytes, h, encode_decode], congrArg decode⟩

theorem pieces_decode (bytes : List UInt8) :
    Text.pieces Sym.slash (decode bytes) = (bytes.splitOn slash).map decode := by
  by_cases h : slash ∈ bytes
  · obtain ⟨x, y, rfl, -⟩ := List.eq_append_cons_of_mem h
    rw [decode_append_slash, Text.pieces_append_cons, List.splitOn_append_cons_self,
      List.map_append, pieces_decode x, pieces_decode y]
  · rw [Text.pieces_of_not_mem (mt slash_mem_decode.1 h), List.splitOn_eq_singleton h]
    rfl
termination_by bytes.length
decreasing_by all_goals simp_all; try omega

theorem decode_intercalate (parts : List (List UInt8)) :
    decode ([slash].intercalate parts) = Text.joinWith [Sym.slash] (parts.map decode) := by
  induction parts with
  | nil => rfl
  | cons part rest ih =>
    cases rest with
    | nil => simp [Text.joinWith]
    | cons next rest =>
      have hjoin : Text.joinWith [Sym.slash] ((part :: next :: rest).map decode) =
          decode part ++ Sym.slash :: Text.joinWith [Sym.slash] ((next :: rest).map decode) := by
        simp [Text.joinWith, List.intercalate]
      rw [hjoin, ← ih, ← decode_append_slash]
      simp [List.intercalate]

/-! ## The parts of a path -/

theorem names_decode (path : List UInt8) : Path.names (decode path) = (names path).map decode := by
  rw [Path.names, pieces_decode, List.filter_map, names]
  congr 1
  apply List.filter_congr
  intro name _
  have hnil : decode name = [] ↔ name = [] := (decode_eq_iff : _ = decode [] ↔ _)
  have hhere : decode name = Path.here ↔ name = [0x2E] := (decode_eq_iff : _ = decode [0x2E] ↔ _)
  simp [hnil, hhere]

theorem length_takeWhile_decode (path : List UInt8) :
    ((decode path).takeWhile (· = Sym.slash)).length = (path.takeWhile (· = slash)).length := by
  induction path with
  | nil => rfl
  | cons b rest ih =>
    by_cases hb : b = slash
    · have hcons : decode (slash :: rest) = Sym.slash :: decode rest := decode_append_slash [] rest
      rw [hb, hcons, List.takeWhile_cons_of_pos (by simp), List.takeWhile_cons_of_pos (by simp),
        List.length_cons, List.length_cons, ih]
    · rw [List.takeWhile_cons_of_neg (by simpa using hb)]
      cases hdecode : decode (b :: rest) with
      | nil => rfl
      | cons s t =>
        have hs : s ≠ Sym.slash := by
          rintro rfl
          have hbytes := encode_decode (b :: rest)
          rw [hdecode] at hbytes
          exact hb (List.cons.inj hbytes).1.symm
        rw [List.takeWhile_cons_of_neg (by simpa using hs)]
        rfl

theorem decode_anchor_append (path rest : List UInt8) :
    decode (anchor path ++ rest) = Path.anchor (decode path) ++ decode rest := by
  have hcons : ∀ bytes, decode (slash :: bytes) = Sym.slash :: decode bytes :=
    decode_append_slash []
  rw [Path.anchor, anchor, length_takeWhile_decode]
  rcases (path.takeWhile (· = slash)).length with _ | _ | _ | _
  · rfl
  · exact hcons rest
  · exact (hcons (slash :: rest)).trans (congrArg _ (hcons rest))
  · exact hcons rest

/-- A path is put together from bytes as it is from the texts that are read from them. -/
theorem decode_printed_eq_ofNames (root : List UInt8) (way : List (List UInt8)) :
    decode (printed root way) =
      Path.ofNames (Path.anchor (decode root)) (Path.names (decode root) ++ way.map decode) := by
  rw [Path.ofNames, names_decode, ← List.map_append, ← decode_intercalate, ← decode_anchor_append,
    printed]
  generalize anchor root ++ [slash].intercalate (names root ++ way) = path
  cases path with
  | nil => rfl
  | cons b rest =>
    cases hdecode : decode (b :: rest) with
    | nil => cases (decode_eq_iff : _ = decode [] ↔ _).1 hdecode
    | cons s t => rfl

/-! ## Printed paths -/

/-- **Printing bytes**: the path that names lead on to from a root, put together from texts that
are read from bytes, is printed as the bytes put together. -/
theorem decode_printed {root : List UInt8} {way : List (List UInt8)}
    (hway : ∀ name ∈ way, Path.IsName (decode name)) :
    decode (printed root way) = Path.plain (Path.below (decode root) (way.map decode)) := by
  have hnames : ∀ name ∈ way.map decode, Path.IsName name := by simpa using hway
  rw [decode_printed_eq_ofNames, Path.plain, Path.names_below hnames, Path.anchor_below hnames]

theorem decode_front (path : List UInt8) :
    decode (front path) = (decode path).rdropWhile (· ≠ Sym.slash) := by
  have hname : ∀ {name : List UInt8}, slash ∉ name →
      ∀ s ∈ decode name, decide (s ≠ Sym.slash) = true := by
    intro name hname s hs
    have hne : s ≠ Sym.slash := fun h => hname (slash_mem_decode.1 (h ▸ hs))
    simpa using hne
  by_cases h : slash ∈ path
  · -- The last slash of the path is the first one from behind.
    obtain ⟨x, y, hsplit, hx⟩ := List.eq_append_cons_of_mem (List.mem_reverse.2 h)
    obtain rfl : path = y.reverse ++ slash :: x.reverse := by
      simpa using congrArg List.reverse hsplit
    rw [← List.mem_reverse] at hx
    rw [front,
      rdropWhile_append_cons (by simp) (fun b hb => by simpa using ne_of_mem_of_not_mem hb hx),
      decode_append_slash, decode_append_slash, rdropWhile_append_cons (by simp) (hname hx)]
    rfl
  · have hfront : front path = [] :=
      List.rdropWhile_eq_nil_iff.2 fun b hb => by simpa using ne_of_mem_of_not_mem hb h
    rw [hfront, List.rdropWhile_eq_nil_iff.2 (hname h)]
    rfl

/-- A path is printed like the path above it if what is behind the last slash is left out. -/
theorem decode_printed_front (path : List UInt8) :
    decode (printed (front path) []) = Path.plain (Path.parent (decode path)) := by
  rw [decode_printed_eq_ofNames, List.map_nil, List.append_nil, ← Path.plain, decode_front,
    Path.plain_parent]

end BytePath

end TreeSieve
