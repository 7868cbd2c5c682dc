import TreeSieve.Proofs.ByteRoots
import TreeSieve.Session

/-!
# Paths on a command line

A value of an option is a word of the command line, or what is left of a word behind an equals sign
or behind letters of options. All of these are characters of ASCII. So if the words of a command
line are read from bytes, the paths in its settings are read from bytes too
(`CommandLine.isDecoded_of_parse`).
-/

namespace TreeSieve.CommandLine

open TreeSieve.Sym Text

/-! ## Words -/

/-- The names of options have only characters. -/
theorem Flag.exists_char_of_mem_table :
    ∀ e ∈ Flag.table, ∀ s ∈ e.1, s = .char (match s with | .char c => c | .raw _ => ' ') := by
  decide

theorem isDecoded_of_append_table {name : Text} {flag : Flag} (hname : (name, flag) ∈ Flag.table)
    {t : Text} (h : IsDecoded (name ++ t)) : IsDecoded t := by
  have hchars := Flag.exists_char_of_mem_table _ hname
  clear hname
  induction name with
  | nil => exact h
  | cons s name ih =>
    obtain ⟨hs, hrest⟩ := List.forall_mem_cons.1 hchars
    rw [List.cons_append, hs, isDecoded_char_cons] at h
    exact ih h hrest

theorem Flag.mem_table_of_ofSpelling? {name : Text} {flag : Flag}
    (h : Flag.ofSpelling? name = some flag) : (name, flag) ∈ Flag.table := by
  obtain ⟨before, after, hsplit, -⟩ := List.lookup_eq_some_iff.1 h
  rw [hsplit]
  simp

/-- The texts of a word that can become values are read from bytes. -/
def Word.IsDecoded : Word → Prop
  | .operand text => text.IsDecoded
  | .flagged _ _ attached => ∀ value ∈ attached, value.IsDecoded
  | _ => True

namespace Word

theorem isDecoded_splitAtEquals {t : Text} (h : t.IsDecoded) :
    ∀ value ∈ (splitAtEquals t).2, value.IsDecoded := by
  intro value hvalue
  unfold splitAtEquals at hvalue
  split at hvalue
  · next s rest hrest =>
    obtain rfl := Option.mem_some_iff.1 hvalue
    have hs := List.head?_dropWhile_not (· ≠ .char '=') t
    rw [hrest] at hs
    have hsplit := List.takeWhile_append_dropWhile (p := (· ≠ .char '=')) (l := t)
    rw [hrest, show s = .char '=' by simpa using hs] at hsplit
    rw [← hsplit] at h
    exact ((isDecoded_append_cons (by decide)).1 h).2
  · cases hvalue

theorem isDecoded_readings {t : Text} (h : t.IsDecoded) : ∀ word ∈ readings t, word.IsDecoded := by
  intro word hword
  unfold readings at hword
  split at hword
  · obtain ⟨e, he, rfl⟩ := List.mem_map.1 hword
    exact isDecoded_splitAtEquals h
  · obtain ⟨⟨name, flag⟩, he, rfl⟩ := List.mem_map.1 hword
    obtain ⟨hmem, hname⟩ := List.mem_filter.1 he
    have hname : name = t.take 2 := by simpa using hname
    have hsplit := List.take_append_drop 2 t
    rw [← hname] at hsplit
    rw [← hsplit] at h
    simpa [Word.IsDecoded] using isDecoded_of_append_table hmem h

theorem isDecoded_classify {t : Text} (h : t.IsDecoded) {word : Word}
    (hword : classify t = .ok word) : word.IsDecoded := by
  unfold classify at hword
  split at hword
  · exact Except.ok.inj hword ▸ h
  · split at hword
    · obtain rfl := Except.ok.inj hword
      exact nofun
    · split at hword
      · exact Except.ok.inj hword ▸ h
      · split at hword
        next name value hsplit =>
        split at hword
        · obtain rfl := Except.ok.inj hword
          have hvalue := isDecoded_splitAtEquals h
          rw [hsplit] at hvalue
          exact hvalue
        · have hreadings := isDecoded_readings h
          split at hword
          · obtain rfl := Except.ok.inj hword
            split
            · exact h
            · trivial
          · next word' hone =>
            obtain rfl := Except.ok.inj hword
            exact hreadings _ (hone ▸ List.mem_singleton_self _)
          · cases hword

theorem isDecoded_ofTexts {args : List Text} (h : ∀ t ∈ args, t.IsDecoded) {words : List Word}
    (hwords : ofTexts args = .ok words) : ∀ word ∈ words, word.IsDecoded := by
  induction args generalizing words with
  | nil =>
    obtain rfl := Except.ok.inj hwords
    simp
  | cons t rest ih =>
    obtain ⟨ht, hrest⟩ := List.forall_mem_cons.1 h
    rw [ofTexts] at hwords
    split at hwords
    · obtain rfl := Except.ok.inj hwords
      refine List.forall_mem_cons.2 ⟨trivial, fun word hword => ?_⟩
      obtain ⟨text, htext, rfl⟩ := List.mem_map.1 hword
      exact hrest text htext
    · obtain ⟨word, hword, hwords⟩ := exists_of_bind_eq_ok hwords
      obtain ⟨more, hmore, hwords⟩ := exists_of_bind_eq_ok hwords
      obtain rfl := Except.ok.inj hwords
      exact List.forall_mem_cons.2 ⟨isDecoded_classify ht hword, ih hrest hmore⟩

/-- The values of options are read from bytes. -/
def OptionsDecoded (options : List (Flag × Option Text)) : Prop :=
  ∀ option ∈ options, ∀ value ∈ option.2, value.IsDecoded

theorem isDecoded_cluster {flag : Flag} {t : Text} (h : t.IsDecoded)
    {options : List (Flag × Option Text)} (hoptions : cluster flag t = .ok options) :
    OptionsDecoded options := by
  fun_induction cluster flag t generalizing options with
  | case1 flag =>
    obtain rfl := Except.ok.inj hoptions
    exact List.forall_mem_singleton.2 nofun
  | case2 flag s rest _ =>
    obtain rfl := Except.ok.inj hoptions
    exact List.forall_mem_singleton.2 fun value hvalue => Option.mem_some_iff.1 hvalue ▸ h
  | case3 => cases hoptions
  | case4 flag s rest _ next hnext ih =>
    obtain ⟨more, hmore, hoptions⟩ := exists_of_bind_eq_ok hoptions
    obtain rfl := Except.ok.inj hoptions
    -- The letter is a character, since it spells an option behind a hyphen.
    have hrest : Text.IsDecoded rest :=
      isDecoded_of_append_table (Flag.mem_table_of_ofSpelling? hnext) (isDecoded_char_cons.2 h)
    exact List.forall_mem_cons.2 ⟨nofun, ih hrest hmore⟩

theorem isDecoded_options {flag : Flag} {name : Text} {attached : Option Text}
    (h : ∀ value ∈ attached, Text.IsDecoded value) {options : List (Flag × Option Text)}
    (hoptions : Word.options flag name attached = .ok options) : OptionsDecoded options := by
  unfold Word.options at hoptions
  split at hoptions
  · obtain rfl := Except.ok.inj hoptions
    exact List.forall_mem_singleton.2 nofun
  · next value =>
    have hvalue := h value rfl
    split at hoptions
    · obtain rfl := Except.ok.inj hoptions
      exact List.forall_mem_singleton.2 h
    · split at hoptions
      · exact isDecoded_cluster hvalue hoptions
      · cases hoptions

end Word

/-! ## Settings -/

namespace Settings

/-- The paths in settings are read from bytes. -/
structure PathsDecoded (s : Settings) : Prop where
  paths : ∀ path ∈ s.paths, path.IsDecoded
  literalPaths : ∀ path, some path ∈ s.literalPaths → path.IsDecoded
  output : ∀ path, s.output = some (some path) → path.IsDecoded

variable {s s' : Settings} {flag : Flag}

/-- An option without a value leaves the paths alone. -/
theorem PathsDecoded.turnOn (h : s.PathsDecoded) (hs : s.turnOn flag = .ok s') :
    s'.PathsDecoded := by
  have hsame : s'.paths = s.paths ∧ s'.literalPaths = s.literalPaths ∧ s'.output = s.output := by
    cases flag with
    | help | version => cases hs
    | _ =>
      obtain rfl := Except.ok.inj hs
      exact ⟨rfl, rfl, rfl⟩
  obtain ⟨hpaths, hliterals, houtput⟩ := hsame
  exact ⟨hpaths ▸ h.paths, hliterals ▸ h.literalPaths, houtput ▸ h.output⟩

theorem PathsDecoded.assign (h : s.PathsDecoded) {value : Text} (hvalue : value.IsDecoded)
    (hs : s.assign flag value = .ok s') : s'.PathsDecoded := by
  have hkept : ∀ path, (if value = Word.separatorText then none else some value) = some path →
      path.IsDecoded := by
    intro path hpath
    split at hpath
    · cases hpath
    · exact Option.some.inj hpath ▸ hvalue
  unfold Settings.assign at hs
  cases flag with
  | literalPath =>
    obtain rfl := Except.ok.inj hs
    refine ⟨h.paths, fun path hpath => ?_, h.output⟩
    rcases List.mem_append.1 hpath with hold | hnew
    · exact h.literalPaths path hold
    · exact hkept path (List.mem_singleton.1 hnew).symm
  | output =>
    obtain rfl := Except.ok.inj hs
    refine ⟨h.paths, h.literalPaths, fun path hpath => ?_⟩
    obtain ⟨text, htext, rfl⟩ := Option.map_eq_some_iff.1 (Option.some.inj hpath)
    exact Path.piecewise_isDecoded.plain (hkept text htext)
  | depth =>
    simp only at hs
    split at hs
    · exact Except.ok.inj hs ▸ ⟨h.paths, h.literalPaths, h.output⟩
    · cases hs
  | errorAction =>
    simp only at hs
    split at hs
    · exact Except.ok.inj hs ▸ ⟨h.paths, h.literalPaths, h.output⟩
    · split at hs
      · exact Except.ok.inj hs ▸ ⟨h.paths, h.literalPaths, h.output⟩
      · cases hs
  | _ => exact Except.ok.inj hs ▸ ⟨h.paths, h.literalPaths, h.output⟩

theorem PathsDecoded.foldlM (h : s.PathsDecoded) {options : List (Flag × Option Text)}
    (hoptions : Word.OptionsDecoded options) (hs : options.foldlM apply s = .ok s') :
    s'.PathsDecoded := by
  induction options generalizing s with
  | nil => exact Except.ok.inj hs ▸ h
  | cons option rest ih =>
    obtain ⟨hoption, hrest⟩ := List.forall_mem_cons.1 hoptions
    rw [List.foldlM_cons] at hs
    obtain ⟨next, hnext, hs⟩ := exists_of_bind_eq_ok hs
    refine ih ?_ hrest hs
    obtain ⟨flag, value?⟩ := option
    cases value? with
    | none => exact h.turnOn hnext
    | some value => exact h.assign (hoption value rfl) hnext

end Settings

/-! ## Reading -/

namespace Progress

theorem pathsDecoded_operand {p : Progress} (h : p.settings.PathsDecoded) {text : Text}
    (htext : text.IsDecoded) : (p.operand text).settings.PathsDecoded := by
  unfold operand
  split
  · exact h
  · exact ⟨List.forall_mem_append.2 ⟨h.paths, List.forall_mem_singleton.2 htext⟩, h.literalPaths,
      h.output⟩

theorem settings_separator (p : Progress) : p.separator.settings = p.settings := by
  unfold separator
  split <;> rfl

theorem pathsDecoded_options {p p' : Progress} (h : p.settings.PathsDecoded)
    {options : List (Flag × Option Text)} (hoptions : Word.OptionsDecoded options)
    (hp : p.options options = .ok p') : p'.settings.PathsDecoded := by
  obtain ⟨settings, hsettings, hp⟩ := exists_of_bind_eq_ok hp
  exact Except.ok.inj hp ▸ h.foldlM hoptions hsettings

end Progress

theorem pathsDecoded_of_readWords {p p' : Progress} {words : List Word}
    (h : p.settings.PathsDecoded) (hwords : ∀ word ∈ words, word.IsDecoded)
    (hp : readWords p words = .ok p') : p'.settings.PathsDecoded := by
  fun_induction readWords p words with
  | case1 p => exact Except.ok.inj hp ▸ h
  | case2 p text rest ih =>
    obtain ⟨htext, hrest⟩ := List.forall_mem_cons.1 hwords
    exact ih (Progress.pathsDecoded_operand h htext) hrest hp
  | case3 p rest ih =>
    exact ih (p.settings_separator ▸ h) (List.forall_mem_cons.1 hwords).2 hp
  | case4 p text rest ih => exact ih h (List.forall_mem_cons.1 hwords).2 hp
  | case5 => cases hp
  | case6 p flag name attached options hoptions rest _ ih =>
    obtain ⟨hword, hrest⟩ := List.forall_mem_cons.1 hwords
    obtain ⟨next, hnext, hp⟩ := exists_of_bind_eq_ok hp
    have hdecoded := Word.isDecoded_options hword hoptions
    exact ih next (Progress.pathsDecoded_options (p := p.endOperands) h hdecoded hnext) hrest hp
  | case7 p flag name attached options hoptions last value rest _ ih =>
    obtain ⟨hword, hrest⟩ := List.forall_mem_cons.1 hwords
    obtain ⟨hvalue, hrest⟩ := List.forall_mem_cons.1 hrest
    obtain ⟨next, hnext, hp⟩ := exists_of_bind_eq_ok hp
    have hdecoded := Word.isDecoded_options hword hoptions
    refine ih next (Progress.pathsDecoded_options (p := p.endOperands) h ?_ hnext) hrest hp
    -- Only the last option of the word has got another value, which is the next word.
    refine List.forall_mem_append.2 ⟨fun option hoption => hdecoded option ?_,
      List.forall_mem_singleton.2 fun text htext => Option.mem_some_iff.1 htext ▸ hvalue⟩
    exact List.mem_of_mem_dropLast hoption
  | case8 => cases hp

/-- **A command line of bytes** gives settings whose paths are read from bytes. -/
theorem pathsDecoded_of_parse {args : List Text} (h : ∀ t ∈ args, t.IsDecoded) {s : Settings}
    (hs : parse args = .ok s) : s.PathsDecoded := by
  obtain ⟨words, hwords, hs⟩ := exists_of_bind_eq_ok hs
  obtain ⟨p, hp, hs⟩ := exists_of_bind_eq_ok hs
  have hdecoded : ∀ word ∈ words, word.IsDecoded := by
    cases hof : Word.ofTexts args with
    | error e =>
      rw [hof] at hwords
      cases hwords
    | ok found =>
      rw [hof] at hwords
      exact Except.ok.inj hwords ▸ Word.isDecoded_ofTexts h hof
  have hempty : Settings.PathsDecoded {} := ⟨by simp, by simp, by simp⟩
  have hpaths := pathsDecoded_of_readWords hempty hdecoded hp
  split at hs
  · exact Except.ok.inj hs ▸ hpaths
  · cases hs

end TreeSieve.CommandLine
