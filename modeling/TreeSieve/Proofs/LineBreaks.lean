import TreeSieve.Proofs.FileLines
import TreeSieve.Proofs.Following
import TreeSieve.Traversal

/-!
# Where the lines of a rule file end

A line ends at a line feed, at a carriage return, or at both together. `Text.BreaksInto` says this
without an algorithm, and `textLines_eq_iff` that the lines of a text are cut like this. So no other
symbol ends a line, whatever it is called elsewhere.

Every content can be decoded, and what cannot stand in a text is replaced
(`Utf8.exists_char_of_mem_decodeLossy`). Lines that are written with one kind of line break are read
back, up to an empty last line without a break behind it (`textLines_ofLines`). An empty line makes
no rule, so a file with these lines declares the rules that the lines declare
(`RuleStack.pushAll_fileLines`).
-/

namespace TreeSieve

open TreeSieve.Sym

/-! ## Line breaks -/

/-- What can end a line. -/
inductive LineBreak where
  | lineFeed
  | carriageReturn
  /-- A carriage return and a line feed, which end only one line. -/
  | both
  deriving DecidableEq

def LineBreak.text : LineBreak → Text
  | .lineFeed => [Sym.lineFeed]
  | .carriageReturn => [.char '\r']
  | .both => [.char '\r', Sym.lineFeed]

namespace Text

/-- A text in which no line ends. -/
def IsUnbroken (t : Text) : Prop := lineFeed ∉ t ∧ .char '\r' ∉ t

/-- A text is cut into lines at its line breaks and nowhere else. What follows the last line break
is a line unless it is empty. A line feed behind a carriage return belongs to the same break. -/
inductive BreaksInto : Text → List Text → Prop
  | nil : BreaksInto [] []
  | last {p : Text} (hp : p.IsUnbroken) (hne : p ≠ []) : BreaksInto p [p]
  | line {p t : Text} {b : LineBreak} {lines : List Text} (hp : p.IsUnbroken)
      (hb : b = .carriageReturn → t.head? ≠ some lineFeed) (ht : BreaksInto t lines) :
      BreaksInto (p ++ (b.text ++ t)) (p :: lines)

theorem isUnbroken_cons {s : Sym} {t : Text} :
    IsUnbroken (s :: t) ↔ s ≠ lineFeed ∧ s ≠ .char '\r' ∧ t.IsUnbroken := by
  simp only [IsUnbroken, List.mem_cons, not_or, ne_eq, eq_comm (b := s)]
  tauto

/-- The first line break of a text. -/
theorem isUnbroken_or_exists_break (t : Text) : t.IsUnbroken ∨ ∃ p b u,
    t = p ++ (LineBreak.text b ++ u) ∧ p.IsUnbroken ∧
      (b = .carriageReturn → u.head? ≠ some lineFeed) := by
  have hnil : IsUnbroken [] := ⟨List.not_mem_nil, List.not_mem_nil⟩
  induction t with
  | nil => exact Or.inl hnil
  | cons s t ih =>
    by_cases hfeed : s = lineFeed
    · exact Or.inr ⟨[], .lineFeed, t, by rw [hfeed]; rfl, hnil, by simp⟩
    by_cases hreturn : s = .char '\r'
    · by_cases hhead : t.head? = some lineFeed
      · obtain ⟨u, rfl⟩ := List.head?_eq_some_iff.1 hhead
        exact Or.inr ⟨[], .both, u, by rw [hreturn]; rfl, hnil, by simp⟩
      · exact Or.inr ⟨[], .carriageReturn, t, by rw [hreturn]; rfl, hnil, fun _ => hhead⟩
    rcases ih with hun | ⟨p, b, u, rfl, hp, hb⟩
    · exact Or.inl (isUnbroken_cons.2 ⟨hfeed, hreturn, hun⟩)
    · exact Or.inr ⟨s :: p, b, u, rfl, isUnbroken_cons.2 ⟨hfeed, hreturn, hp⟩, hb⟩

/-- The lines of a text are parts of it. -/
theorem BreaksInto.of_mem {t : Text} {lines : List Text} (h : BreaksInto t lines) :
    ∀ line ∈ lines, line.IsUnbroken ∧ ∀ s ∈ line, s ∈ t := by
  induction h with
  | nil => simp
  | last hp => exact List.forall_mem_singleton.2 ⟨hp, fun s hs => hs⟩
  | line hp _ _ ih =>
    refine List.forall_mem_cons.2
      ⟨⟨hp, fun s hs => List.mem_append_left _ hs⟩, fun line hline => ?_⟩
    obtain ⟨hun, hmem⟩ := ih line hline
    exact ⟨hun, fun s hs => List.mem_append_right _ (List.mem_append_right _ (hmem s hs))⟩

end Text

/-! ## Lines are cut at line breaks -/

section Cut

variable {p : Text} (hp : p.IsUnbroken)

include hp

theorem textLines_of_isUnbroken : textLines p = if p = [] then [] else [p] := by
  have hunify : textLines.unifyBreaks p = p := by
    have happend := unifyBreaks_append hp.2 []
    rwa [textLines.unifyBreaks, List.append_nil] at happend
  rw [textLines_eq, hunify, Text.pieces_of_not_mem hp.1]
  by_cases hnil : p = []
  · rw [hnil]
    rfl
  · simp [hnil]

/-- The lines begin anew behind a line break. -/
theorem textLines_append_break {b : LineBreak} {t : Text}
    (hb : b = .carriageReturn → t.head? ≠ some lineFeed) :
    textLines (p ++ (b.text ++ t)) = p :: textLines t := by
  have hbreak : textLines.unifyBreaks (b.text ++ t) = textLines.unifyBreaks (lineFeed :: t) := by
    cases b with
    | lineFeed | both => rfl
    | carriageReturn =>
      rw [LineBreak.text, List.singleton_append, textLines.unifyBreaks]
      · rfl
      · rintro rest - rfl
        exact hb rfl rfl
  rw [textLines_eq, unifyBreaks_append hp.2, hbreak, ← unifyBreaks_append hp.2, ← textLines_eq,
    textLines_append_lineFeed hp.2 hp.1]

end Cut

theorem Text.BreaksInto.textLines_eq {t : Text} {lines : List Text} (h : t.BreaksInto lines) :
    textLines t = lines := by
  induction h with
  | nil => rfl
  | last hp hne => rw [textLines_of_isUnbroken hp, if_neg hne]
  | line hp hb _ ih => rw [textLines_append_break hp hb, ih]

theorem breaksInto_textLines (t : Text) : t.BreaksInto (textLines t) := by
  rcases t.isUnbroken_or_exists_break with hun | ⟨p, b, u, rfl, hp, hb⟩
  · rw [textLines_of_isUnbroken hun]
    split
    · next hnil =>
      rw [hnil]
      exact .nil
    · next hne => exact .last hun hne
  · rw [textLines_append_break hp hb]
    exact .line hp hb (breaksInto_textLines u)
termination_by t.length
decreasing_by
  subst_vars
  have hpos : 0 < b.text.length := by cases b <;> decide
  simp only [List.length_append]
  omega

/-- **A text is cut into lines at its line breaks** and nowhere else. -/
theorem textLines_eq_iff {t : Text} {lines : List Text} :
    textLines t = lines ↔ t.BreaksInto lines := by
  constructor
  · rintro rfl
    exact breaksInto_textLines t
  · exact Text.BreaksInto.textLines_eq

/-! ## Lines that are written -/

/-- Lines as a text, with a line break behind each. Behind the last line there may be none. -/
def Text.ofLines (b : LineBreak) (closed : Bool) : List Text → Text
  | [] => []
  | [line] => if closed then line ++ b.text else line
  | line :: next :: rest => line ++ (b.text ++ ofLines b closed (next :: rest))

namespace Text

variable {b : LineBreak} {closed : Bool} {lines : List Text}

theorem mem_ofLines {s : Sym} (h : s ∈ ofLines b closed lines) :
    s ∈ b.text ∨ ∃ line ∈ lines, s ∈ line := by
  fun_induction ofLines b closed lines with
  | case1 => cases h
  | case2 line =>
    rcases List.mem_append.1 h with hline | hbreak
    · exact Or.inr ⟨line, List.mem_cons_self, hline⟩
    · exact Or.inl hbreak
  | case3 line => exact Or.inr ⟨line, List.mem_cons_self, h⟩
  | case4 line next rest ih =>
    rcases List.mem_append.1 h with hline | h
    · exact Or.inr ⟨line, List.mem_cons_self, hline⟩
    rcases List.mem_append.1 h with hbreak | h
    · exact Or.inl hbreak
    rcases ih h with hbreak | ⟨line', hmem, hs⟩
    · exact Or.inl hbreak
    · exact Or.inr ⟨line', List.mem_cons_of_mem line hmem, hs⟩

/-- Lines that are written with carriage returns do not begin with a line feed. -/
theorem head?_ofLines (h : ∀ line ∈ lines, line.IsUnbroken) (hb : b = .carriageReturn) :
    (ofLines b closed lines).head? ≠ some lineFeed := by
  intro hhead
  rcases mem_ofLines (List.mem_of_head? hhead) with hbreak | ⟨line, hline, hs⟩
  · rw [hb] at hbreak
    exact absurd hbreak (by decide)
  · exact (h line hline).1 hs

end Text

/-- **Written lines are read back.** Only an empty last line without a line break is lost. -/
theorem textLines_ofLines (b : LineBreak) (closed : Bool) {lines : List Text}
    (h : ∀ line ∈ lines, line.IsUnbroken) : textLines (Text.ofLines b closed lines) =
      if closed = false ∧ lines.getLast? = some [] then lines.dropLast else lines := by
  fun_induction Text.ofLines b closed lines with
  | case1 => simp [textLines_of_isUnbroken (p := []) ⟨List.not_mem_nil, List.not_mem_nil⟩]
  | case2 line hclosed =>
    have hbehind := textLines_append_break (h line List.mem_cons_self) (b := b) (t := []) (by simp)
    rw [List.append_nil] at hbehind
    rw [if_neg (by simp [hclosed]), hbehind]
    rfl
  | case3 line hclosed =>
    rw [textLines_of_isUnbroken (h line List.mem_cons_self)]
    simp [hclosed]
  | case4 line next rest ih =>
    obtain ⟨hline, hrest⟩ := List.forall_mem_cons.1 h
    rw [textLines_append_break hline (Text.head?_ofLines hrest), ih hrest,
      List.getLast?_cons_of_ne_nil (List.cons_ne_nil next rest),
      List.dropLast_cons_of_ne_nil (List.cons_ne_nil next rest)]
    split <;> rfl

/-! ## Contents -/

namespace Utf8

theorem exists_char_of_mem_decodeLossyFrom {skip : Nat} {bytes : List UInt8} {s : Sym}
    (h : s ∈ decodeLossyFrom skip bytes) : ∃ c, s = .char c := by
  fun_induction decodeLossyFrom skip bytes with
  | case1 => cases h
  | case2 _ _ _ ih => exact ih h
  | case3 _ _ c _ ih | case4 _ _ _ ih =>
    rcases List.mem_cons.1 h with rfl | h
    · exact ⟨_, rfl⟩
    · exact ih h

/-- **Every content can be decoded**: what comes out are characters. -/
theorem exists_char_of_mem_decodeLossy {bytes : List UInt8} {s : Sym} (h : s ∈ decodeLossy bytes) :
    ∃ c, s = .char c :=
  exists_char_of_mem_decodeLossyFrom h

theorem exists_eq_ofChars {t : Text} (h : ∀ s ∈ t, ∃ c, s = .char c) :
    ∃ cs, t = Text.ofChars cs := by
  induction t with
  | nil => exact ⟨[], rfl⟩
  | cons s t ih =>
    obtain ⟨⟨c, rfl⟩, ht⟩ := List.forall_mem_cons.1 h
    obtain ⟨cs, rfl⟩ := ih ht
    exact ⟨c :: cs, rfl⟩

/-- Characters are read back. -/
theorem decodeLossy_encode {t : Text} (h : ∀ s ∈ t, ∃ c, s = .char c) :
    decodeLossy (encode t) = t := by
  obtain ⟨cs, rfl⟩ := exists_eq_ofChars h
  have happend := decodeLossy_encode_append cs []
  rw [List.append_nil] at happend
  exact happend.trans (List.append_nil _)

end Utf8

theorem Text.isLine_iff {t : Text} : t.IsLine ↔ t.IsUnbroken ∧ ∀ s ∈ t, ∃ c, s = .char c := by
  have hmem : ∀ (cs : List Char) (c : Char), Sym.char c ∈ ofChars cs ↔ c ∈ cs := by
    intro cs c
    simp [ofChars]
  constructor
  · rintro ⟨cs, rfl, hlf, hcr⟩
    refine ⟨⟨fun h => hlf ((hmem cs _).1 h), fun h => hcr ((hmem cs _).1 h)⟩, fun s hs => ?_⟩
    obtain ⟨c, -, rfl⟩ := List.mem_map.1 hs
    exact ⟨c, rfl⟩
  · rintro ⟨⟨hlf, hcr⟩, hchar⟩
    obtain ⟨cs, rfl⟩ := Utf8.exists_eq_ofChars hchar
    exact ⟨cs, rfl, fun h => hlf ((hmem cs _).2 h), fun h => hcr ((hmem cs _).2 h)⟩

namespace RuleStack

theorem isLine_of_mem_fileLines (content : List UInt8) :
    ∀ line ∈ fileLines content, line.IsLine := by
  intro line hline
  obtain ⟨hun, hmem⟩ := (breaksInto_textLines (Utf8.decodeLossy content)).of_mem line hline
  exact Text.isLine_iff.2 ⟨hun, fun s hs => Utf8.exists_char_of_mem_decodeLossy (hmem s hs)⟩

/-- An empty line at the end makes no rule. -/
theorem declared_dropLast {directory : Text} {lines : List Text} (h : lines.getLast? = some []) :
    declared directory lines.dropLast = declared directory lines := by
  obtain ⟨before, rfl⟩ := List.getLast?_eq_some_iff.1 h
  have hnone : Rule.ofLine? directory [] = none := rfl
  rw [List.dropLast_concat, declared, declared, List.filterMap_append]
  simp [hnone]

/-- The rules of a file with given lines are the rules of the lines. -/
theorem declared_fileLines {lines : List Text} (h : ∀ line ∈ lines, line.IsLine) (b : LineBreak)
    (closed : Bool) (directory : Text) :
    declared directory (fileLines (Utf8.encode (Text.ofLines b closed lines))) =
      declared directory lines := by
  have hchar : ∀ s ∈ Text.ofLines b closed lines, ∃ c, s = .char c := by
    intro s hs
    rcases Text.mem_ofLines hs with hbreak | ⟨line, hline, hs⟩
    · cases b <;> simp only [LineBreak.text, List.mem_cons, List.not_mem_nil, or_false] at hbreak
      · exact ⟨_, hbreak⟩
      · exact ⟨_, hbreak⟩
      · rcases hbreak with hs | hs <;> exact ⟨_, hs⟩
    · exact (Text.isLine_iff.1 (h line hline)).2 s hs
  have hun : ∀ line ∈ lines, line.IsUnbroken := fun line hline =>
    (Text.isLine_iff.1 (h line hline)).1
  rw [fileLines, Utf8.decodeLossy_encode hchar, textLines_ofLines b closed hun]
  split
  · next hlast => exact declared_dropLast hlast.2
  · rfl

end RuleStack

/-- A rule file that can be read is loaded, whatever its content is. -/
theorem Traversal.ruleFile_of_file {o : Options} {d : Disk} {f : Frame} {name : Text}
    {l : Location} {content : List UInt8} (hname : o.ruleFileName = some name)
    (hf : f.excludedBy = 0) (hl : d.locate (Path.join f.absolute name) = .ok l)
    (hget : d.root.get? l = some (.file content)) (hreadable : l ∉ d.unreadable) :
    ruleFile o d f = .ok (some (RuleStack.declared f.absolute (RuleStack.fileLines content),
      Path.join f.absolute name)) := by
  have hfile : d.isFile (Path.join f.absolute name) = true := by
    rw [Disk.isFile, Disk.node?, hl]
    simp [hget, Node.isFile]
  have hread : d.read (Path.join f.absolute name) = .ok content := by
    rw [Disk.read_eq, hl]
    simp [hget, hreadable]
  rw [ruleFile, hname]
  simp only [hf, ne_eq, not_true_eq_false, if_false, hfile, if_true, hread]

namespace RuleStack

/-- **Rule files decode to their lines.** A file that holds lines of characters, with one kind of
line break behind each of them or behind all but the last, has the rules pushed that the lines
declare, with the same priorities and as many of them. The lines of an arbitrary content are lines
of characters, cut at its line breaks and nowhere else, and a file that can be read is loaded
whatever it holds. -/
theorem pushAll_fileLines {lines : List Text} (h : ∀ line ∈ lines, line.IsLine) (b : LineBreak)
    (closed : Bool) (s : RuleStack) (directory : Text) (content : List UInt8) :
    s.pushAll (declared directory (fileLines (Utf8.encode (Text.ofLines b closed lines)))) =
      s.pushAll (declared directory lines) ∧
    (declared directory (fileLines (Utf8.encode (Text.ofLines b closed lines)))).length =
      (declared directory lines).length ∧
    (∀ line ∈ fileLines content, line.IsLine) ∧
    (Utf8.decodeLossy content).BreaksInto (fileLines content) ∧
    ∀ (o : Options) (d : Disk) (f : Frame) (name : Text) (l : Location),
      o.ruleFileName = some name → f.excludedBy = 0 →
      d.locate (Path.join f.absolute name) = .ok l → d.root.get? l = some (.file content) →
      l ∉ d.unreadable → Traversal.ruleFile o d f =
        .ok (some (declared f.absolute (fileLines content), Path.join f.absolute name)) := by
  have hrules := declared_fileLines h b closed directory
  refine ⟨congrArg s.pushAll hrules, congrArg List.length hrules, isLine_of_mem_fileLines content,
    breaksInto_textLines _, ?_⟩
  intro o d f name l hname hf hl hget hreadable
  exact Traversal.ruleFile_of_file hname hf hl hget hreadable

/-- A line separator of Unicode and a form feed stay in their lines, an empty line makes no rule,
and a byte that is not UTF-8 is replaced. -/
theorem pushAll_fileLines_separators :
    let d : Disk := ⟨.directory [("r", .file [0x2A, 0xFF, 0x0D, 0x0A, 0x62])], [], []⟩
    let f : Frame := ⟨"/", "/", none, 0, none, 0, false⟩
    (pushAll {} (declared "/p" (fileLines (Utf8.encode "a\u2028b\r\n\r\n!c\x0cd")))).rules.map
        (fun r => (r.priority, r.rule.source)) =
          ([(2, "!c\x0cd"), (1, "a\u2028b")] : List (Nat × Text)) ∧
      (Utf8.decodeLossy [0x2A, 0xFF, 0x0D, 0x0A, 0x62]).BreaksInto ["*\uFFFD", "b"] ∧
      Traversal.ruleFile { ruleFileName := some "r" } d f =
        .ok (some (declared "/" ["*\uFFFD", "b"], "/r")) := by
  intro d f
  have hlines : ∀ line ∈ (["a\u2028b", "", "!c\x0cd"] : List Text), line.IsLine := by
    intro line hline
    rcases List.mem_cons.1 hline with rfl | hline
    · exact ⟨['a', '\u2028', 'b'], rfl, by decide, by decide⟩
    rcases List.mem_pair.1 hline with rfl | rfl
    · exact ⟨[], rfl, by decide, by decide⟩
    · exact ⟨['!', 'c', '\x0c', 'd'], rfl, by decide, by decide⟩
  obtain ⟨hpushed, -, -, hcut, hloaded⟩ :=
    pushAll_fileLines hlines .both false {} "/p" [0x2A, 0xFF, 0x0D, 0x0A, 0x62]
  have hcontent : (Text.ofLines .both false ["a\u2028b", "", "!c\x0cd"] : Text) =
      "a\u2028b\r\n\r\n!c\x0cd" := by cbv
  have hread : fileLines [0x2A, 0xFF, 0x0D, 0x0A, 0x62] = ["*\uFFFD", "b"] := by cbv
  have hlocate : d.locate (Path.join f.absolute "r") = .ok ["r"] := by cbv
  have hfile := hloaded { ruleFileName := some "r" } d f "r" ["r"] rfl rfl hlocate rfl
    List.not_mem_nil
  rw [hread] at hcut hfile
  rw [hcontent] at hpushed
  refine ⟨?_, hcut, hfile⟩
  rw [hpushed]
  cbv

end RuleStack

end TreeSieve
