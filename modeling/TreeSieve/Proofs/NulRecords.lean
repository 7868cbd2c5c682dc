import TreeSieve.Proofs.CommandPaths
import TreeSieve.Proofs.PrintedBytes
import TreeSieve.Proofs.RunWrites

/-!
# Records that end in NUL

A run that ends its records in NUL writes the paths of its results as bytes, and none of them has a
NUL in it. So what is written is split at NUL into these paths again, whatever bytes the names of
the file system and the words of the command line are (`Session.splitOn_nul_records`).

The paths are those of the results, and they are put together from the bytes of a root and of names
in the file system (`BytePath.Places`): reading bytes as texts, building paths and writing texts as
bytes leaves them as they are.
-/

namespace TreeSieve

open TreeSieve.Sym

/-- Records that end in a byte which none of them has inside are got back by splitting. Behind the
last record there is nothing. -/
theorem splitOn_records {sep : UInt8} {records : List (List UInt8)}
    (h : ∀ record ∈ records, sep ∉ record) :
    (records.flatMap (· ++ [sep])).splitOn sep = records ++ [[]] := by
  induction records with
  | nil => rfl
  | cons record rest ih =>
    obtain ⟨hrecord, hrest⟩ := List.forall_mem_cons.1 h
    rw [List.flatMap_cons, List.append_assoc, List.singleton_append,
      List.splitOn_append_cons_self, List.splitOn_eq_singleton hrecord, ih hrest,
      List.singleton_append, List.cons_append]

/-- Texts of bytes that are written with a NUL behind each of them. -/
theorem Text.splitOn_encode {texts : List Text} (h : ∀ text ∈ texts, text.IsCString) :
    (texts.flatMap fun text => Utf8.encode (text ++ [nul])).splitOn 0 =
      texts.map Utf8.encode ++ [[]] := by
  have hnuls : ∀ record ∈ texts.map Utf8.encode, (0 : UInt8) ∉ record := by
    intro record hrecord
    obtain ⟨text, htext, rfl⟩ := List.mem_map.1 hrecord
    obtain ⟨hdecoded, hnul⟩ := h text htext
    exact mt (hdecoded.mem_encode_iff (c := Char.ofNat 0) (by decide)).1 hnul
  have hrecord : ∀ text : Text, Utf8.encode (text ++ [nul]) = Utf8.encode text ++ [0] :=
    fun text => List.flatMap_append
  simp only [hrecord]
  rw [← splitOn_records hnuls, List.flatMap_map]

theorem Path.Piecewise.below {P : Text → Prop} (hP : Piecewise P) {root : Text} (hroot : P root)
    {way : List Text} (hway : ∀ name ∈ way, P name) : P (Path.below root way) := by
  induction way generalizing root with
  | nil => exact hroot
  | cons name way ih =>
    obtain ⟨hname, hway⟩ := List.forall_mem_cons.1 hway
    exact ih (hP.join hroot hname) hway

/-! ## Where results are shown -/

/-- Where a result is shown that comes from a root, in bytes: under a path on which names lead on
from the root, or as the directory of a root that is a file. -/
def BytePath.Places (o : Options) (ns : List Text) (root path : List UInt8) : Prop :=
  (∃ way, (∀ name ∈ way, Utf8.decode name ∈ ns) ∧ path = printed root way) ∨
    o.output = .directories ∧ path = printed (front root) []

section Places

variable {o : Options} {ns : List Text} {root : Text} {result : Result}

/-- The bytes of a result are put together from bytes. -/
theorem BytePath.places_encode (hns : ∀ name ∈ ns, name.IsByteName) (hroot : root.IsDecoded)
    (h : Walk.Places o ns root result) :
    Places o ns (Utf8.encode root) (Utf8.encode result.path) := by
  rcases h with ⟨_, ⟨way, hway, rfl⟩, hpath⟩ | ⟨hout, hpath⟩
  · have hread : ∀ name ∈ way, Utf8.decode (Utf8.encode name) = name :=
      fun name hname => (hns name (hway name hname)).2
    have hprinted : Utf8.decode (printed (Utf8.encode root) (way.map Utf8.encode)) = _ :=
      decode_printed <| by
        intro bytes hbytes
        obtain ⟨name, hname, rfl⟩ := List.mem_map.1 hbytes
        exact (hread name hname).symm ▸ (hns name (hway name hname)).1
    have hback : (way.map Utf8.encode).map Utf8.decode = way := by
      rw [List.map_map]
      exact (List.map_congr_left hread).trans (List.map_id way)
    rw [hroot, hback, ← hpath] at hprinted
    refine Or.inl ⟨way.map Utf8.encode, fun bytes hbytes => ?_, ?_⟩
    · obtain ⟨name, hname, rfl⟩ := List.mem_map.1 hbytes
      exact (hread name hname).symm ▸ hway name hname
    · rw [← hprinted, Utf8.encode_decode]
  · have hprinted := decode_printed_front (Utf8.encode root)
    rw [hroot, ← hpath] at hprinted
    exact Or.inr ⟨hout, by rw [← hprinted, Utf8.encode_decode]⟩

theorem Walk.Places.isCString (hns : ∀ name ∈ ns, name.IsByteName) (hroot : root.IsCString)
    (h : Places o ns root result) : result.path.IsCString := by
  have hP := Path.piecewise_isCString
  rcases h with ⟨_, ⟨way, hway, rfl⟩, hpath⟩ | ⟨-, hpath⟩
  · rw [hpath]
    refine hP.plain (hP.below hroot fun name hname => ?_)
    obtain ⟨⟨-, -, -, -, hnul⟩, hdecoded⟩ := hns name (hway name hname)
    exact ⟨hdecoded, hnul⟩
  · rw [hpath]
    exact hP.plain (hP.parent hroot)

end Places

namespace Session

open CommandLine

/-! ## Before the walk -/

/-- What a run has before its walk: the plan, the target, and the terminal with the target open. -/
def prepare (s : Settings) (t : Terminal) : Except Failure (Plan × Target × Terminal) := do
  let s ← s.validate.mapError Failure.conflict
  let p ← planOf s
  let (target, t) ← openTarget s t
  return (p, target, t)

variable {s : Settings} {t start : Terminal} {p : Plan} {target : Target}

/-- A run walks what it has prepared, and then writes no more to the target. -/
theorem content?_runSettings (h : prepare s t = .ok (p, target, start))
    (hpatterns : none ∉ s.patterns) : (runSettings s t).1.content? target =
      (p.walk target start).1.terminal.content? target := by
  have hsaid : ∀ (t : Terminal) failure, (fail t failure).1.content? target = t.content? target :=
    fun t failure => by cases target <;> rfl
  unfold prepare at h
  unfold runSettings
  simp only [h, Plan.lacking, if_neg hpatterns]
  cases p.walk target start with
  | mk r finished =>
    simp only
    split
    · exact hsaid _ _
    · split
      · exact hsaid _ _
      · rfl

theorem exists_of_prepare (h : prepare s t = .ok (p, target, start)) :
    ∃ s', s.validate = .ok s' ∧ planOf s' = .ok p ∧ openTarget s' t = .ok (target, start) := by
  obtain ⟨s', hvalidate, h⟩ := exists_of_bind_eq_ok h
  obtain ⟨p', hplan, h⟩ := exists_of_bind_eq_ok h
  obtain ⟨⟨target', start'⟩, hopen, h⟩ := exists_of_bind_eq_ok h
  obtain ⟨rfl, hrest⟩ := Prod.mk.inj (Except.ok.inj h)
  obtain ⟨rfl, rfl⟩ := Prod.mk.inj hrest
  refine ⟨s', ?_, hplan, hopen⟩
  cases hs : s.validate with
  | error c =>
    rw [hs] at hvalidate
    cases hvalidate
  | ok s'' =>
    rw [hs] at hvalidate
    exact congrArg Except.ok (Except.ok.inj hvalidate)

/-- Settings are used as they are, but that the working directory is walked without any path. -/
theorem validate_eq_ok {s' : Settings} (h : s.validate = .ok s') :
    s' = s ∨ s' = { s with paths := [Path.here] } := by
  unfold Settings.validate at h
  split at h
  · cases h
  · split at h
    · exact Or.inr (Except.ok.inj h).symm
    · exact Or.inl (Except.ok.inj h).symm

theorem planOf_eq_ok (h : planOf s = .ok p) :
    p.roots = s.paths.map .pattern ++ (usable s.literalPaths).1.map .literal ∧
      p.terminator = if s.null then .nul else .lineFeed := by
  unfold planOf at h
  split at h
  · simp only [bind, Except.bind] at h
    split at h
    · cases h
    · obtain rfl := Except.ok.inj h
      exact ⟨rfl, rfl⟩
  · cases h

theorem isDecoded_of_planOf (hs : s.PathsDecoded) (h : planOf s = .ok p) :
    ∀ argument ∈ p.roots, argument.text.IsDecoded := by
  intro argument hargument
  rw [(planOf_eq_ok h).1] at hargument
  rcases List.mem_append.1 hargument with hmem | hmem
  · obtain ⟨path, hpath, rfl⟩ := List.mem_map.1 hmem
    exact hs.paths path hpath
  · obtain ⟨path, hpath, rfl⟩ := List.mem_map.1 hmem
    obtain ⟨value, hvalue, hsome⟩ := List.mem_filterMap.1 hpath
    obtain rfl : value = some path := hsome
    exact hs.literalPaths path ((List.takeWhile_sublist _).subset hvalue)

/-- With the target open, all names are still read from bytes. -/
theorem isByteName_of_openTarget (hs : s.PathsDecoded) (ht : t.disk.HasByteNames)
    (h : openTarget s t = .ok (target, start)) :
    ∀ name ∈ start.disk.root.names, name.IsByteName := by
  unfold openTarget at h
  split at h
  · obtain ⟨-, rfl⟩ := Prod.mk.inj (Except.ok.inj h)
    exact ht.names
  · next path hpath =>
    split at h
    · next location disk hfile =>
      obtain ⟨-, rfl⟩ := Prod.mk.inj (Except.ok.inj h)
      exact ht.isByteName_of_openFile (hs.output path (Option.join_eq_some_iff.1 hpath)) hfile
    · cases h

/-- What is prepared from settings whose paths are read from bytes. -/
theorem isDecoded_of_prepare (h : prepare s t = .ok (p, target, start)) (hs : s.PathsDecoded)
    (ht : t.disk.HasByteNames) :
    (∀ argument ∈ p.roots, argument.text.IsDecoded) ∧
      (∀ name ∈ start.disk.root.names, name.IsByteName) ∧
      (s.null = true → p.terminator = nul) := by
  obtain ⟨s', hvalidate, hplan, hopen⟩ := exists_of_prepare h
  have hs' : s'.PathsDecoded ∧ s'.null = s.null := by
    rcases validate_eq_ok hvalidate with rfl | rfl
    · exact ⟨hs, rfl⟩
    · refine ⟨⟨List.forall_mem_singleton.2 ?_, hs.literalPaths, hs.output⟩, rfl⟩
      exact Path.piecewise_isDecoded.here
  refine ⟨isDecoded_of_planOf hs'.1 hplan, isByteName_of_openTarget hs'.1 ht hopen,
    fun hnull => ?_⟩
  rw [(planOf_eq_ok hplan).2, hs'.2, hnull, if_pos rfl]

/-! ## What is written -/

/-- The results of a run are shown under paths without a NUL that are put together from bytes. -/
theorem places_of_mem_watch (h : prepare s t = .ok (p, target, start)) (hs : s.PathsDecoded)
    (ht : t.disk.HasByteNames) (hends : (p.walk target start).2 = true) :
    ∀ path ∈ (p.watch target start).1.paths, path.IsCString ∧
      ∃ root, .note (.walking (Utf8.decode root)) ∈ (p.watch target start).1.events ∧
        BytePath.Places p.options start.disk.root.names root (Utf8.encode path) := by
  intro path hpath
  obtain ⟨hroots, hnames, -⟩ := isDecoded_of_prepare h hs ht
  obtain ⟨result, hresult, rfl⟩ := Watched.mem_paths.1 hpath
  obtain ⟨root, hwalking, hdecoded, hnul, hplace⟩ := (Plan.wrote_watch hends).2 Text.IsDecoded
    Path.piecewise_isDecoded (fun name hname => (hnames name hname).2) hroots result hresult
  refine ⟨hplace.isCString hnames ⟨hdecoded, hnul⟩, Utf8.encode root, ?_, ?_⟩
  · exact hdecoded.symm ▸ hwalking
  · exact BytePath.places_encode hnames hdecoded hplace

/-- What a walk that went on to its end has written: the paths of its results, each with what ends
it. -/
theorem taken_watch (hends : (p.walk target start).2 = true) :
    (p.watch target start).1.taken =
      (p.watch target start).1.paths.flatMap fun path => Utf8.encode (path ++ [p.terminator]) := by
  rw [(Plan.wrote_watch hends).1.taken_eq, Watched.flatMap_record]
  rfl

/-- Records of byte strings that a writer has sent to any sink, in parts of any size, are got back
by splitting. -/
theorem splitOn_taken_records {σ : Type} {k : Sink σ} (hk : k.Takes) {w : Writer} {state : σ}
    {paths : List (List UInt8)} (hpaths : ∀ path ∈ paths, (Utf8.decode path).IsCString)
    (hok : ∀ r ∈ w.records k state
      (paths.map fun path => .write (Utf8.decode path ++ [nul]) false), r.result = .ok ()) :
    ((w.records k state
      (paths.map fun path => .write (Utf8.decode path ++ [nul]) false)).flatMap
        Writer.Record.taken).splitOn 0 = paths ++ [[]] := by
  have hcalls : paths.map (fun path => Writer.Call.write (Utf8.decode path ++ [nul]) false) =
      (paths.map fun path => Utf8.decode path ++ [nul]).map (Writer.Call.write · false) := by
    rw [List.map_map]
    rfl
  have hback : (paths.map Utf8.decode).map Utf8.encode = paths := by
    rw [List.map_map]
    exact (List.map_congr_left fun path _ => Utf8.encode_decode path).trans (List.map_id paths)
  have hstrings : ∀ text ∈ paths.map Utf8.decode, text.IsCString := by simpa using hpaths
  have hsplit := Text.splitOn_encode hstrings
  rw [hcalls] at hok ⊢
  rw [Writer.taken_records_of_ok hk hok, List.flatMap_map]
  rw [List.flatMap_map, hback] at hsplit
  exact hsplit

/-- **Lossless**: if the walk of a run that ends its records in NUL goes on to its end, what is
written is split at NUL into the paths of the results, in order. They are the paths that are put
together from the bytes of roots and of names. The target holds them behind what it held before, on
standard output they are those of the walk by itself, and a sink that takes records in parts gets
the same bytes. -/
theorem splitOn_nul_records {args : List (List UInt8)} (ht : t.disk.HasByteNames)
    (hparse : parse (args.map Utf8.decode) = .ok s) (hnull : s.null = true)
    (hprepare : prepare s t = .ok (p, target, start)) (hpatterns : none ∉ s.patterns)
    (hends : (p.walk target start).2 = true) :
    let watched := (p.watch target start).1
    ∃ paths : List (List UInt8),
      watched.paths = paths.map Utf8.decode ∧
      watched.taken.splitOn 0 = paths ++ [[]] ∧
      (∀ path ∈ paths, ∃ root, .note (.walking (Utf8.decode root)) ∈ watched.events ∧
        BytePath.Places p.options start.disk.root.names root path) ∧
      (∀ old, start.content? target = some old →
        (run (args.map Utf8.decode) t).1.content? target = some (old ++ watched.taken)) ∧
      (target = .standardOutput → shown watched.events =
        (Walk.many p.options Collected.receiver p.roots { disk := start.disk }).1.events) ∧
      ∀ {σ : Type} {k : Sink σ}, k.Takes → ∀ (w : Writer) (state : σ),
        let records := w.records k state
          (paths.map fun path => .write (Utf8.decode path ++ [nul]) false)
        (∀ r ∈ records, r.result = .ok ()) →
          (records.flatMap Writer.Record.taken).splitOn 0 = paths ++ [[]] := by
  intro watched
  have hwords : ∀ text ∈ args.map Utf8.decode, Text.IsDecoded text := by
    intro text htext
    obtain ⟨bytes, -, rfl⟩ := List.mem_map.1 htext
    exact Text.isDecoded_decode bytes
  have hs := pathsDecoded_of_parse hwords hparse
  have hterminator := (isDecoded_of_prepare hprepare hs ht).2.2 hnull
  have hplaces := places_of_mem_watch hprepare hs ht hends
  have hread : watched.paths = (watched.paths.map Utf8.encode).map Utf8.decode := by
    rw [List.map_map]
    refine ((List.map_congr_left fun path hpath => ?_).trans (List.map_id _)).symm
    exact (hplaces path hpath).1.1
  refine ⟨watched.paths.map Utf8.encode, hread, ?_, fun bytes hbytes => ?_, fun old hold => ?_,
    fun htarget => ?_, fun {σ k} hk w state hok => splitOn_taken_records hk ?_ hok⟩
  · rw [taken_watch hends, hterminator]
    exact Text.splitOn_encode fun path hpath => (hplaces path hpath).1
  · obtain ⟨path, hpath, rfl⟩ := List.mem_map.1 hbytes
    exact (hplaces path hpath).2
  · have hrun : run (args.map Utf8.decode) t = runSettings s t := by rw [run, hparse]
    have hwrote := (Plan.wrote_watch hends).1
    rw [hrun, content?_runSettings hprepare hpatterns, ← (p.watch_eq_walk target start).1,
      hwrote.content_eq old hold, hwrote.taken_eq]
    rfl
  · subst htarget
    exact Plan.shown_watch hends
  · intro bytes hbytes
    have hmem := List.mem_map_of_mem (f := Utf8.decode) hbytes
    exact (hplaces _ (hread ▸ hmem)).1

/-- A name that ends in the middle of a character, and a character of which the first byte is the
name of a directory and the second byte the name of a file in it. -/
theorem splitOn_nul_records_parts_of_characters :
    let t : Terminal := { disk := ⟨.directory [(Utf8.decode [0x63, 0x61, 0x66, 0xE9], .file []),
      (Utf8.decode [0xC3], .directory [(Utf8.decode [0xA9], .file [])])], [], []⟩ }
    let args : List (List UInt8) := [[0x2D, 0x30], [0x2E]]
    (run (args.map Utf8.decode) t).1.output.splitOn 0 =
      [[0x63, 0x61, 0x66, 0xE9], [0xC3, 0x2F, 0xA9], []] := by
  intro t args
  let p : Plan :=
    { options := { ruleFileName := Options.ruleFileOf none }
      roots := [.pattern Path.here]
      terminator := nul
      verbose := false }
  have hparse : parse (args.map Utf8.decode) = .ok { paths := [Path.here], null := true } := by cbv
  have hprepare : prepare { paths := [Path.here], null := true } t = .ok (p, .standardOutput, t) :=
    rfl
  have hends : (p.walk .standardOutput t).2 = true := by cbv
  have hshown : (p.watch .standardOutput t).1.paths =
      [[0x63, 0x61, 0x66, 0xE9], [0xC3, 0x2F, 0xA9]].map Utf8.decode := by cbv
  obtain ⟨paths, hpaths, hsplit, -, hcontent, -⟩ :=
    splitOn_nul_records ⟨by decide, by decide, by decide⟩ hparse rfl hprepare (by decide) hends
  have houtput : (run (args.map Utf8.decode) t).1.output = (p.watch .standardOutput t).1.taken :=
    Option.some.inj (hcontent [] rfl)
  have hinjective : Function.Injective Utf8.decode := fun _ _ => BytePath.decode_eq_iff.1
  rw [houtput, hsplit, ← List.map_injective_iff.2 hinjective (hshown.symm.trans hpaths)]
  rfl

end Session

end TreeSieve
