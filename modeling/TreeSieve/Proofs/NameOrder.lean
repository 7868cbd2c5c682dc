import TreeSieve.Proofs.Following

/-!
# The order of names

The order by code point is a total order on texts. It is antisymmetric because no symbol has the
code of another one: undecodable bytes take places that belong to no character. So a listing in
this order does not depend on how the entries were enumerated (`sortedByName_unique`).
-/

namespace TreeSieve

theorem Sym.code_injective {a b : Sym} (h : a.code = b.code) : a = b := by
  cases a with
  | char c =>
    cases b with
    | char c' => rw [Char.ext (UInt32.toNat_inj.1 h)]
    | raw x =>
      have hvalid : c.toNat.isValidChar := c.valid
      have hx : x.toNat < 256 := x.toNat_lt
      simp only [Sym.code] at h
      simp only [Nat.isValidChar] at hvalid
      omega
  | raw x =>
    cases b with
    | char c =>
      have hvalid : c.toNat.isValidChar := c.valid
      have hx : x.toNat < 256 := x.toNat_lt
      simp only [Sym.code] at h
      simp only [Nat.isValidChar] at hvalid
      omega
    | raw y =>
      simp only [Sym.code, Nat.add_left_cancel_iff] at h
      rw [UInt8.toNat_inj.1 h]

namespace Text

theorem le_cons {a b : Sym} {s t : Text} :
    le (a :: s) (b :: t) = true ↔ a.code < b.code ∨ (a = b ∧ le s t = true) := by
  have hcode : a.code = b.code ↔ a = b := ⟨Sym.code_injective, fun h => h ▸ rfl⟩
  simp [le, hcode]

theorem le_total (s t : Text) : (le s t || le t s) = true := by
  induction s generalizing t with
  | nil => simp [le]
  | cons a s ih =>
    cases t with
    | nil => simp [le]
    | cons b t =>
      rw [Bool.or_eq_true, le_cons, le_cons]
      rcases Nat.lt_trichotomy a.code b.code with hlt | heq | hgt
      · exact Or.inl (Or.inl hlt)
      · obtain rfl := Sym.code_injective heq
        rcases Bool.or_eq_true_iff.1 (ih t) with hle | hle
        · exact Or.inl (Or.inr ⟨rfl, hle⟩)
        · exact Or.inr (Or.inr ⟨rfl, hle⟩)
      · exact Or.inr (Or.inl hgt)

theorem le_trans {s t u : Text} (h : le s t = true) (h' : le t u = true) : le s u = true := by
  induction s generalizing t u with
  | nil => rfl
  | cons a s ih =>
    cases t with
    | nil => cases h
    | cons b t =>
      cases u with
      | nil => cases h'
      | cons c u =>
        rw [le_cons] at h h' ⊢
        rcases h with hlt | ⟨rfl, hle⟩
        · rcases h' with hlt' | ⟨rfl, -⟩
          · exact Or.inl (Nat.lt_trans hlt hlt')
          · exact Or.inl hlt
        · rcases h' with hlt' | ⟨rfl, hle'⟩
          · exact Or.inl hlt'
          · exact Or.inr ⟨rfl, ih hle hle'⟩

theorem le_antisymm {s t : Text} (h : le s t = true) (h' : le t s = true) : s = t := by
  induction s generalizing t with
  | nil =>
    cases t with
    | nil => rfl
    | cons b t => cases h'
  | cons a s ih =>
    cases t with
    | nil => cases h
    | cons b t =>
      rw [le_cons] at h h'
      rcases h with hlt | ⟨rfl, hle⟩
      · rcases h' with hlt' | ⟨rfl, -⟩
        · omega
        · omega
      · rcases h' with hlt' | ⟨-, hle'⟩
        · omega
        · rw [ih hle hle']

end Text

/-! ## Sorted listings -/

section Sorted

variable {α : Type} (name : α → Text)

/-- Entries sorted by their names. -/
def sortedByName (l : List α) : List α := l.mergeSort fun a b => (name a).le (name b)

theorem pairwise_sortedByName (l : List α) :
    (sortedByName name l).Pairwise fun a b => (name a).le (name b) = true := by
  apply List.pairwise_mergeSort
  · intro a b c hab hbc
    exact Text.le_trans hab hbc
  · intro a b
    exact Text.le_total _ _

/-- If the names are different, only one order is sorted. -/
theorem sortedByName_unique {l l' : List α} (hperm : l.Perm l') (hnodup : (l.map name).Nodup) :
    sortedByName name l = sortedByName name l' := by
  have hp : (sortedByName name l).Perm l := List.mergeSort_perm l _
  have hp' : (sortedByName name l').Perm l' := List.mergeSort_perm l' _
  apply List.Perm.eq_of_pairwise _ (pairwise_sortedByName name l) (pairwise_sortedByName name l')
    (hp.trans (hperm.trans hp'.symm))
  intro a b ha hb hab hba
  have hal : a ∈ l := hp.subset ha
  have hbl : b ∈ l := hperm.symm.subset (hp'.subset hb)
  exact List.inj_on_of_nodup_map hnodup hal hbl (Text.le_antisymm hab hba)

end Sorted

end TreeSieve
