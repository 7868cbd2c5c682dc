import TreeSieve.Proofs.PathNames
import TreeSieve.RuleStack

/-!
# The lines of a rule file

What is written as lines of characters is read as the same lines, whatever comes behind them in the
file. Decoding takes one character after the other, and is not thrown off by malformed bytes that
follow (`Utf8.decodeLossy_encode_append`). Behind a line feed the cutting into lines begins anew
(`textLines_append_lineFeed`). So lines in front of the content of a rule file are lines in front of
its lines (`RuleStack.fileLines_encodeLines_append`).
-/

namespace TreeSieve

open TreeSieve.Sym

/-! ## Decoding -/

namespace Utf8

theorem firstChar?_encodeChar_append (c : Char) (bytes : List UInt8) :
    firstChar? (String.utf8EncodeChar c ++ bytes) = some c := by
  have hlength : (String.utf8EncodeChar c).length ≤ 4 := by
    rw [String.length_utf8EncodeChar]
    exact Char.utf8Size_le_four c
  rw [firstChar?, List.take_append, List.take_of_length_le hlength, List.toByteArray_append]
  exact ByteArray.utf8DecodeChar?_utf8EncodeChar_append

theorem exists_cons_encodeChar (c : Char) :
    ∃ b rest, String.utf8EncodeChar c = b :: rest ∧ rest.length = c.utf8Size - 1 := by
  have hlength := String.length_utf8EncodeChar c
  cases hbytes : String.utf8EncodeChar c with
  | nil =>
    rw [hbytes, List.length_nil] at hlength
    exact absurd hlength.symm (Nat.ne_of_gt c.utf8Size_pos)
  | cons b rest =>
    rw [hbytes, List.length_cons] at hlength
    exact ⟨b, rest, rfl, Nat.eq_sub_of_add_eq hlength⟩

theorem decodeLossyFrom_eq (skip : Nat) (bytes : List UInt8) :
    decodeLossyFrom skip bytes = decodeLossy (bytes.drop skip) := by
  induction bytes generalizing skip with
  | nil => cases skip <;> rfl
  | cons b rest ih =>
    cases skip with
    | zero => rfl
    | succ skip => exact ih skip

theorem decodeLossy_encodeChar_append (c : Char) (bytes : List UInt8) :
    decodeLossy (String.utf8EncodeChar c ++ bytes) = .char c :: decodeLossy bytes := by
  have hfirst := firstChar?_encodeChar_append c bytes
  obtain ⟨b, rest, hbytes, hlength⟩ := exists_cons_encodeChar c
  rw [hbytes, List.cons_append] at hfirst ⊢
  rw [decodeLossy, decodeLossyFrom, hfirst]
  simp only [decodeLossyFrom_eq, ← hlength, List.drop_left]

/-- **Characters are read back**, and what comes behind them is read as if it stood alone. -/
theorem decodeLossy_encode_append (cs : List Char) (bytes : List UInt8) :
    decodeLossy (encode (Text.ofChars cs) ++ bytes) = Text.ofChars cs ++ decodeLossy bytes := by
  induction cs with
  | nil => rfl
  | cons c cs ih =>
    have hencode : encode (Text.ofChars (c :: cs)) =
        String.utf8EncodeChar c ++ encode (Text.ofChars cs) := rfl
    rw [hencode, List.append_assoc, decodeLossy_encodeChar_append, ih]
    rfl

end Utf8

/-! ## Lines -/

/-- A text of characters that does not break a line. -/
def Text.IsLine (t : Text) : Prop := ∃ cs, t = ofChars cs ∧ '\n' ∉ cs ∧ '\r' ∉ cs

/-- Lines as the bytes of a file, each with a line feed at its end. -/
def Utf8.encodeLines (lines : List Text) : List UInt8 :=
  lines.flatMap fun line => encode (line ++ [lineFeed])

theorem unifyBreaks_append {p : Text} (h : .char '\r' ∉ p) (t : Text) :
    textLines.unifyBreaks (p ++ t) = p ++ textLines.unifyBreaks t := by
  induction p with
  | nil => rfl
  | cons s p ih =>
    rw [List.mem_cons, not_or] at h
    have hs : s ≠ .char '\r' := Ne.symm h.1
    rw [List.cons_append, textLines.unifyBreaks, if_neg hs, ih h.2]
    · rfl
    · exact fun _ hcr => absurd hcr hs

theorem textLines_eq (t : Text) : textLines t =
    if (Text.pieces lineFeed (textLines.unifyBreaks t)).getLast? = some [] then
      (Text.pieces lineFeed (textLines.unifyBreaks t)).dropLast
    else Text.pieces lineFeed (textLines.unifyBreaks t) := by
  rw [textLines]
  cases h : Text.pieces lineFeed (textLines.unifyBreaks t) with
  | nil => exact absurd h (Text.pieces_ne_nil _ _)
  | cons p ps => rfl

/-- Lines begin anew behind a line feed. -/
theorem textLines_append_lineFeed {p : Text} (hcr : .char '\r' ∉ p) (hlf : lineFeed ∉ p)
    (t : Text) : textLines (p ++ lineFeed :: t) = p :: textLines t := by
  have hne := Text.pieces_ne_nil lineFeed (textLines.unifyBreaks t)
  have hbreak : textLines.unifyBreaks (lineFeed :: t) = lineFeed :: textLines.unifyBreaks t := rfl
  have hpieces : Text.pieces lineFeed (textLines.unifyBreaks (p ++ lineFeed :: t)) =
      p :: Text.pieces lineFeed (textLines.unifyBreaks t) := by
    rw [unifyBreaks_append hcr, hbreak, Text.pieces_append_cons, Text.pieces_of_not_mem hlf]
    rfl
  rw [textLines_eq, textLines_eq, hpieces, List.getLast?_cons_of_ne_nil hne,
    List.dropLast_cons_of_ne_nil hne]
  split <;> rfl

/-- **Lines are read back**, in front of the lines of what comes behind them. -/
theorem RuleStack.fileLines_encodeLines_append {lines : List Text} (h : ∀ line ∈ lines, line.IsLine)
    (content : List UInt8) :
    fileLines (Utf8.encodeLines lines ++ content) = lines ++ fileLines content := by
  induction lines with
  | nil => rfl
  | cons line lines ih =>
    obtain ⟨⟨cs, rfl, hlf, hcr⟩, hlines⟩ := List.forall_mem_cons.1 h
    have hmem : ∀ c, Sym.char c ∈ Text.ofChars cs → c ∈ cs := by
      intro c hc
      obtain ⟨_, hc, heq⟩ := List.mem_map.1 hc
      exact Sym.char.inj heq ▸ hc
    have hencode : Utf8.encodeLines (Text.ofChars cs :: lines) ++ content =
        Utf8.encode (Text.ofChars (cs ++ ['\n'])) ++ (Utf8.encodeLines lines ++ content) := by
      simp [Utf8.encodeLines, Text.ofChars]
    have htext : ∀ t : Text, Text.ofChars (cs ++ ['\n']) ++ t = Text.ofChars cs ++ lineFeed :: t :=
      fun t => by simp [Text.ofChars]
    rw [hencode, fileLines, Utf8.decodeLossy_encode_append, htext,
      textLines_append_lineFeed (fun hc => hcr (hmem _ hc)) (fun hc => hlf (hmem _ hc))]
    exact congrArg _ (ih hlines)

end TreeSieve
