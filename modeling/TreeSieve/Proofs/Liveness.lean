import TreeSieve.Ancestors

/-!
# Live directories on entering and leaving

A directory that is entered is not live yet. While the walk is in it, its own reported files and the
directories put aside below it make it live, and when it is left nothing of this remains but the
paths put aside and the life of the directory above: that is what `Ancestors.gain` says, and
`Ancestors.leave_gain` is the law.
-/

namespace TreeSieve.Ancestors

theorem markLive_of_isLive {a : Ancestors} {key : Text} (h : a.isLive key = true) :
    a.markLive key = a := by
  rw [markLive, if_pos h]

theorem markLive_of_not_mem {a : Ancestors} {key : Text} (h : key ∉ a.live) :
    a.markLive key = { a with live := key :: a.live } := by
  have hnot : a.isLive key = false := by simpa [isLive] using h
  rw [markLive, hnot]
  rfl

theorem isLive_markLive (a : Ancestors) (key : Text) : (a.markLive key).isLive key = true := by
  cases h : a.isLive key with
  | true => rwa [markLive_of_isLive h]
  | false =>
    rw [markLive, h]
    simp [isLive]

@[simp] theorem markLive_markLive (a : Ancestors) (key : Text) :
    (a.markLive key).markLive key = a.markLive key :=
  markLive_of_isLive (isLive_markLive a key)

theorem mem_live_markLive {a : Ancestors} {key k : Text} (h : k ∈ (a.markLive key).live) :
    k = key ∨ k ∈ a.live := by
  unfold markLive at h
  split at h
  · exact Or.inr h
  · exact List.mem_cons.1 h

/-- What has changed when the walk is done with some directories below another one: the paths found
are put aside, and if there are any, the directory above is live. -/
def gain (a : Ancestors) (above : Option Text) (found : List Text) : Ancestors :=
  match found, above with
  | [], _ => a
  | found, some key => { a.markLive key with pending := found ++ a.pending }
  | found, none => { a with pending := found ++ a.pending }

@[simp] theorem gain_nil (a : Ancestors) (above : Option Text) : a.gain above [] = a := rfl

theorem gain_some {a : Ancestors} {key : Text} {found : List Text} (h : found ≠ []) :
    a.gain (some key) found = { a.markLive key with pending := found ++ a.pending } := by
  cases found with
  | nil => exact absurd rfl h
  | cons => rfl

theorem gain_gain (a : Ancestors) (key : Text) (found more : List Text) :
    (a.gain (some key) found).gain (some key) more = a.gain (some key) (more ++ found) := by
  cases found with
  | nil => simp
  | cons x found =>
    cases more with
    | nil => rfl
    | cons y more =>
      rw [gain_some (by simp), gain_some (by simp), gain_some (by simp)]
      have hl : isLive { a.markLive key with pending := x :: found ++ a.pending } key = true :=
        isLive_markLive a key
      rw [markLive_of_isLive hl]
      simp

theorem mem_live_gain {a : Ancestors} {key k : Text} {found : List Text}
    (h : k ∈ (a.gain (some key) found).live) : k = key ∨ k ∈ a.live := by
  cases found with
  | nil => exact Or.inr h
  | cons => exact mem_live_markLive h

/-- A directory on leaving, with what its own files and the directories below have made of it. -/
theorem gain_own {a : Ancestors} {key : Text} (hkey : key ∉ a.live) (own : Bool)
    (below : List Text) : (if own then a.markLive key else a).gain (some key) below =
      if own || !below.isEmpty then { live := key :: a.live, pending := below ++ a.pending }
      else a := by
  have hl : isLive { a with live := key :: a.live } key = true := by simp [isLive]
  cases own with
  | true =>
    cases below with
    | nil => simp [markLive_of_not_mem hkey]
    | cons x below =>
      rw [if_pos rfl, markLive_of_not_mem hkey, gain_some (by simp), markLive_of_isLive hl]
      simp
  | false =>
    cases below with
    | nil => simp
    | cons x below => simp [gain_some, markLive_of_not_mem hkey]

/-- **Leaving a directory** that was not live when it was entered. It is put aside if a file of its
own was reported or something was found below it. -/
theorem leave_gain {a : Ancestors} {key : Text} (hkey : key ∉ a.live) (own : Bool)
    (below : List Text) (path : Text) (above : Option Text) :
    ((if own then a.markLive key else a).gain (some key) below).leave key path above =
      a.gain above (if own || !below.isEmpty then path :: below else []) := by
  rw [gain_own hkey]
  cases h : own || !below.isEmpty with
  | false =>
    have hnot : a.isLive key = false := by simpa [isLive] using hkey
    simp [leave, hnot]
  | true =>
    have hl : isLive { live := key :: a.live, pending := below ++ a.pending } key = true := by
      simp [isLive]
    have hfilter : (key :: a.live).filter (· ≠ key) = a.live := by
      rw [List.filter_cons_of_neg (by simp)]
      exact List.filter_eq_self.2 fun k hk => by simpa using fun heq : k = key => hkey (heq ▸ hk)
    rw [if_pos rfl, if_pos rfl, leave, if_pos hl]
    simp only [hfilter]
    cases above <;> rfl

end TreeSieve.Ancestors
