import TreeSieve.Proofs.Delivery
import TreeSieve.Proofs.Resemblance

/-!
# Lexically scoped rules

A walk keeps one stack of rules for all directories, numbers the rules as they come, and marks the
exit of a directory by the directory's own record in the queue. `Walker.walk_eq_recursion` says that
all of this is a recursive walk in which every directory hands its rules down to its
subdirectories, and nothing else.

The order in which the system enumerates the entries of directories has no influence: the walk may
go over any file system that is enumerated in another order (`Disk.Reorders`).
-/

namespace TreeSieve

namespace Disk

/-- One file system is the other, enumerated in another order. -/
structure Reorders (d d' : Disk) : Prop where
  resembles : d.Resembles d'
  content : ∀ l content, d.root.get? l = some (.file content) →
    d'.root.get? l = some (.file content)

namespace Reorders

variable {d d' : Disk} (h : d.Reorders d')

include h

theorem read (path : Text) : d'.read path = d.read path := by
  rw [read_eq, read_eq, h.resembles.locate, h.resembles.unreadable]
  cases d.locate path with
  | error fault => rfl
  | ok l =>
    have hkind := h.resembles.kind l
    cases hget : d.root.get? l with
    | none =>
      rw [hget] at hkind
      simp only [hget, Option.map_eq_none_iff.1 hkind]
    | some node =>
      rw [hget] at hkind
      obtain ⟨node', hget', hk⟩ := Option.map_eq_some_iff.1 hkind
      cases node with
      | file content => simp only [hget, h.content l content hget]
      | directory _ | link _ | device _ =>
        cases node' <;> cases hk
        simp only [hget, hget']

variable (o : Options)

theorem ownRules (s : Context) : s.ownRules o d' = s.ownRules o d := by
  simp only [Context.ownRules, Place.ownRules, h.resembles.isFile, h.read]

theorem subcontext? (into : Standing → Bool) (s : Context) (rules : List Rule) :
    s.subcontext? o d' into rules = s.subcontext? o d into rules := by
  funext e
  rw [Context.subcontext?, Context.subcontext?, h.resembles.subdirectory?]

variable (hd : d.WellFormed) (hd' : d'.WellFormed)

include hd hd'

theorem enter (s : Context) : s.enter o d' = s.enter o d := by
  rw [Context.enter, Context.enter, h.ownRules, h.resembles.place_scan o hd hd']

/-- The recursion does not see in which order the entries of directories are enumerated. -/
theorem walk (into : Standing → Bool) (levels : Nat) (s : Context) :
    s.walk o d' into levels = s.walk o d into levels :=
  Context.walk_congr (h.enter o hd hd') (fun _ => rfl)
    (fun c => funext (h.subcontext? o into c)) rfl levels s

end Reorders

/-- The entries of the root directory can be enumerated in any order. -/
theorem Reorders.of_perm {entries entries' : List (Text × Node)}
    (hn : (entries.map (·.1)).Nodup) (hp : entries'.Perm entries) (l : Location)
    (unreadable : List Location) :
    Reorders ⟨.directory entries, l, unreadable⟩ ⟨.directory entries', l, unreadable⟩ := by
  have hn' : (entries'.map (·.1)).Nodup := (hp.map (·.1)).nodup_iff.2 hn
  have hlookup : ∀ name, entries'.lookup name = entries.lookup name := by
    intro name
    apply Option.ext
    intro node
    constructor
    · intro h
      exact Node.lookup_of_mem hn (hp.subset (Node.mem_of_lookup h))
    · intro h
      exact Node.lookup_of_mem hn' (hp.symm.subset (Node.mem_of_lookup h))
  have hget : ∀ name rest, (Node.directory entries').get? (name :: rest) =
      (Node.directory entries).get? (name :: rest) := by
    intro name rest
    rw [Node.get?_directory_cons, Node.get?_directory_cons, hlookup]
  refine ⟨⟨rfl, rfl, fun l => ?_⟩, fun l content h => ?_⟩
  · cases l with
    | nil => rfl
    | cons name rest => exact congrArg (Option.map Node.kind) (hget name rest)
  · cases l with
    | nil => cases h
    | cons name rest => exact (hget name rest).trans h

end Disk

namespace Walker

/-- **A walk is the recursion with lexically scoped rules.** With one stack of rules that is pushed
and popped, numbers that only grow, and a queue in which the record of a directory marks both its
entry and its exit, a walk reports the same files and errors in the same order as the recursion,
whatever the order in which directories are enumerated. -/
theorem walk_eq_recursion {w : Walker} (hfiles : w.options.output = .files)
    (hreport : w.options.onError = .report) {d d' : Disk} (hd : d.WellFormed)
    (hd' : d'.WellFormed) (h : d.Reorders d') {root : Text} (hroot : d.isDirectory root = true)
    {levels : Nat} (hlevels : d.root.size < levels) :
    (w.walk d' root none).1 =
      (Context.root w.options d root).walk w.options d w.options.descends levels := by
  have hroot' : d'.isDirectory root = true := by rw [h.resembles.isDirectory, hroot]
  have hshallow : Place.Shallow w.options d levels (Context.root w.options d root).place :=
    Place.shallow_root hd root hlevels
  have hn : d'.root.size < d'.root.size + levels := by omega
  rw [walk_eq hreport hd' hn, Walk.listing, if_pos (Disk.has_of_isDirectory hroot'),
    if_pos hroot', Context.tree, Options.listing, hfiles, h.resembles.context_root]
  simp only
  rw [h.walk w.options hd hd', Context.walk_of_shallow (Nat.le_add_left ..) hshallow]

/-- A rule file that excludes object files, in a directory that is enumerated in another order. -/
theorem walk_eq_recursion_object_files :
    (walk { options := { ruleFileName := some "r" } }
      ⟨.directory [("b.o", .file []), ("a", .directory [("y", .file []), ("x.o", .file [])]),
        ("r", .file (Utf8.encode "*.o"))], [], []⟩ "/" none).1 = [.result ⟨"/a/y", false⟩] := by
  have hperm : @List.Perm (Text × Node)
      [("b.o", .file []), ("a", .directory [("y", .file []), ("x.o", .file [])]),
        ("r", .file (Utf8.encode "*.o"))]
      [("a", .directory [("y", .file []), ("x.o", .file [])]), ("b.o", .file []),
        ("r", .file (Utf8.encode "*.o"))] := List.Perm.swap ..
  have hlevels : Node.size (.directory [("a", .directory [("y", .file []), ("x.o", .file [])]),
      ("b.o", .file []), ("r", .file (Utf8.encode "*.o"))]) < 7 := by decide
  rw [walk_eq_recursion rfl rfl (by decide) (by decide)
    (Disk.Reorders.of_perm (by decide) hperm [] []) (by cbv) hlevels]
  cbv

end Walker

end TreeSieve
