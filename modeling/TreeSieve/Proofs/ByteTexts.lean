import TreeSieve.Proofs.FileLines

/-!
# Texts that are read from bytes

Decoding keeps every byte, so encoding gives back what was decoded, whatever the bytes are
(`Utf8.encode_decode`). The other way round it is not so for every text: single bytes that make up
a character together are read as this character. The texts for which it is so are those that are
read from bytes (`Text.IsDecoded`).

Such texts can be cut and put together at characters of ASCII (`Text.isDecoded_append_cons`). No
character of more than one byte has a byte of ASCII, so what is read on one side does not depend on
what is on the other.
-/

namespace TreeSieve

open TreeSieve.Sym

namespace Utf8

/-! ## One character -/

theorem firstChar?_eq_some_iff {bytes : List UInt8} {c : Char} :
    firstChar? bytes = some c ↔ String.utf8EncodeChar c <+: bytes := by
  constructor
  · intro h
    obtain ⟨rest, hrest⟩ := ByteArray.exists_of_utf8DecodeChar?_eq_some h
    have htake : bytes.take 4 = String.utf8EncodeChar c ++ rest.data.toList := by
      simpa using congrArg (fun b : ByteArray => b.data.toList) hrest
    exact (htake ▸ List.prefix_append _ _).trans (List.take_prefix 4 bytes)
  · rintro ⟨rest, rfl⟩
    exact firstChar?_encodeChar_append c rest

/-- Only a character of ASCII has a byte of ASCII. -/
theorem le_of_mem_encodeChar {c : Char} (hc : c.utf8Size ≠ 1) {b : UInt8}
    (hb : b ∈ String.utf8EncodeChar c) : 0x80 ≤ b := by
  have hlength := String.length_utf8EncodeChar c
  rw [String.utf8EncodeChar] at hb hlength
  rw [UInt8.le_iff_toNat_le]
  split at hb
  · next hascii =>
    rw [if_pos hascii] at hlength
    exact absurd hlength.symm hc
  · split at hb
    · simp only [List.mem_cons, List.not_mem_nil, or_false] at hb
      rcases hb with rfl | rfl <;> simp <;> omega
    · split at hb
      · simp only [List.mem_cons, List.not_mem_nil, or_false] at hb
        rcases hb with rfl | rfl | rfl <;> simp <;> omega
      · simp only [List.mem_cons, List.not_mem_nil, or_false] at hb
        rcases hb with rfl | rfl | rfl | rfl <;> simp <;> omega

/-- The byte of a character of ASCII. -/
theorem toNat_of_utf8Size_eq_one {c : Char} (hc : c.utf8Size = 1) :
    c.val.toUInt8.toNat = c.toNat ∧ c.toNat < 0x80 := by
  have hlt : c.toNat < 0x80 :=
    Nat.lt_succ_of_le (UInt32.le_iff_toNat_le.1 (Char.utf8Size_eq_one_iff.1 hc))
  refine ⟨?_, hlt⟩
  rw [UInt32.toNat_toUInt8]
  exact Nat.mod_eq_of_lt (hlt.trans (by decide))

theorem mem_encodeChar_iff {a c : Char} (ha : a.utf8Size = 1) :
    a.val.toUInt8 ∈ String.utf8EncodeChar c ↔ a = c := by
  constructor
  · intro h
    obtain ⟨hbyte, hlt⟩ := toNat_of_utf8Size_eq_one ha
    by_cases hc : c.utf8Size = 1
    · rw [String.utf8EncodeChar_eq_singleton hc, List.mem_singleton] at h
      rw [← Char.toNat_inj, ← hbyte, h, (toNat_of_utf8Size_eq_one hc).1]
    · have hle := UInt8.le_iff_toNat_le.1 (le_of_mem_encodeChar hc h)
      exact absurd hle (Nat.not_le.2 (hbyte ▸ hlt))
  · rintro rfl
    rw [String.utf8EncodeChar_eq_singleton ha]
    exact List.mem_singleton_self _

/-- Behind a byte that begins a character or not, a byte of ASCII ends what can be part of it. -/
theorem firstChar?_append_cons {a : UInt8} (ha : a < 0x80) (b : UInt8) (x rest : List UInt8) :
    firstChar? (b :: (x ++ a :: rest)) = firstChar? (b :: x) := by
  apply Option.ext
  intro c
  rw [firstChar?_eq_some_iff, firstChar?_eq_some_iff]
  refine ⟨fun h => ?_, fun h => h.trans ⟨a :: rest, rfl⟩⟩
  rw [← List.cons_append] at h
  obtain ⟨more, hmore⟩ := h
  rcases List.append_eq_append_iff.1 hmore with ⟨u, hu, -⟩ | ⟨u, hu, hrest⟩
  · exact ⟨u, hu.symm⟩
  · cases u with
    | nil => exact ⟨[], by simpa using hu⟩
    | cons a' u =>
      -- The character would have more than one byte, and the byte of ASCII among them.
      obtain rfl : a = a' := (List.cons.inj hrest).1
      have hsize : c.utf8Size ≠ 1 := by
        rw [← String.length_utf8EncodeChar, hu]
        simp
      have hle := le_of_mem_encodeChar hsize (hu ▸ List.mem_append_right _ List.mem_cons_self)
      exact absurd ha (UInt8.not_lt.2 hle)

/-! ## Decoding -/

theorem decodeFrom_eq (skip : Nat) (bytes : List UInt8) :
    decodeFrom skip bytes = decode (bytes.drop skip) := by
  induction bytes generalizing skip with
  | nil => cases skip <;> rfl
  | cons b rest ih =>
    cases skip with
    | zero => rfl
    | succ skip => exact ih skip

theorem decode_encodeChar_append (c : Char) (bytes : List UInt8) :
    decode (String.utf8EncodeChar c ++ bytes) = .char c :: decode bytes := by
  have hfirst := firstChar?_encodeChar_append c bytes
  obtain ⟨b, rest, hbytes, hlength⟩ := exists_cons_encodeChar c
  rw [hbytes, List.cons_append] at hfirst ⊢
  rw [decode, decodeFrom, hfirst]
  simp only [decodeFrom_eq, ← hlength, List.drop_left]

theorem decode_cons_of_none {b : UInt8} {bytes : List UInt8}
    (h : firstChar? (b :: bytes) = none) : decode (b :: bytes) = .raw b :: decode bytes := by
  rw [decode, decodeFrom, h]
  rfl

theorem encode_decodeFrom (skip : Nat) (bytes : List UInt8) :
    encode (decodeFrom skip bytes) = bytes.drop skip := by
  induction bytes generalizing skip with
  | nil => cases skip <;> rfl
  | cons b rest ih =>
    cases skip with
    | succ skip => exact ih skip
    | zero =>
      rw [decodeFrom]
      cases hfirst : firstChar? (b :: rest) with
      | none => exact congrArg (b :: ·) (ih 0)
      | some c =>
        obtain ⟨more, hmore⟩ := firstChar?_eq_some_iff.1 hfirst
        obtain ⟨b', tail, hbytes, hlength⟩ := exists_cons_encodeChar c
        rw [hbytes, List.cons_append] at hmore
        obtain ⟨rfl, rfl⟩ := List.cons.inj hmore
        have hrest : encode (decodeFrom (c.utf8Size - 1) (tail ++ more)) = more := by
          rw [ih, ← hlength, List.drop_left]
        rw [encode, List.flatMap_cons, ← encode, hrest, encodeSym, hbytes]
        rfl

/-- **No byte is lost**: a text that was read from bytes is written as these bytes. -/
theorem encode_decode (bytes : List UInt8) : encode (decode bytes) = bytes :=
  encode_decodeFrom 0 bytes

end Utf8

/-! ## Texts that are read from bytes -/

namespace Text

/-- A text that is read from bytes: the bytes that it is written as are read as this text. -/
def IsDecoded (t : Text) : Prop := Utf8.decode (Utf8.encode t) = t

instance : DecidablePred IsDecoded := fun t =>
  inferInstanceAs (Decidable (Utf8.decode (Utf8.encode t) = t))

theorem isDecoded_decode (bytes : List UInt8) : IsDecoded (Utf8.decode bytes) :=
  congrArg Utf8.decode (Utf8.encode_decode bytes)

theorem isDecoded_char_cons {c : Char} {t : Text} : IsDecoded (.char c :: t) ↔ IsDecoded t := by
  have hencode : Utf8.encode (.char c :: t) = String.utf8EncodeChar c ++ Utf8.encode t := rfl
  rw [IsDecoded, hencode, Utf8.decode_encodeChar_append, List.cons.injEq]
  exact and_iff_right rfl

theorem isDecoded_raw_cons {b : UInt8} {t : Text} : IsDecoded (.raw b :: t) ↔
    Utf8.firstChar? (b :: Utf8.encode t) = none ∧ IsDecoded t := by
  have hencode : Utf8.encode (.raw b :: t) = b :: Utf8.encode t := rfl
  rw [IsDecoded, hencode]
  cases hfirst : Utf8.firstChar? (b :: Utf8.encode t) with
  | none => simp [Utf8.decode_cons_of_none hfirst, IsDecoded]
  | some c => simp [Utf8.decode, Utf8.decodeFrom, hfirst]

/-- **A character of ASCII separates** what is in front of it from what is behind it. -/
theorem isDecoded_append_cons {c : Char} (hc : c.utf8Size = 1) {x y : Text} :
    IsDecoded (x ++ .char c :: y) ↔ IsDecoded x ∧ IsDecoded y := by
  induction x with
  | nil =>
    rw [List.nil_append, isDecoded_char_cons]
    exact (and_iff_right rfl).symm
  | cons s x ih =>
    rw [List.cons_append]
    cases s with
    | char d => rw [isDecoded_char_cons, isDecoded_char_cons, ih]
    | raw b =>
      have hencode : Utf8.encode (x ++ .char c :: y) =
          Utf8.encode x ++ c.val.toUInt8 :: Utf8.encode y := by
        simp [Utf8.encode, Utf8.encodeSym, String.utf8EncodeChar_eq_singleton hc]
      have hascii : c.val.toUInt8 < 0x80 := by
        obtain ⟨hbyte, hlt⟩ := Utf8.toNat_of_utf8Size_eq_one hc
        rwa [UInt8.lt_iff_toNat_lt, hbyte]
      rw [isDecoded_raw_cons, isDecoded_raw_cons, hencode, Utf8.firstChar?_append_cons hascii, ih,
        and_assoc]

/-- A text that is read from bytes has a character of ASCII where the bytes have its byte. -/
theorem IsDecoded.mem_encode_iff {t : Text} (h : IsDecoded t) {c : Char} (hc : c.utf8Size = 1) :
    c.val.toUInt8 ∈ Utf8.encode t ↔ .char c ∈ t := by
  induction t with
  | nil => simp [Utf8.encode]
  | cons s t ih =>
    rw [Utf8.encode, List.flatMap_cons, ← Utf8.encode, List.mem_append, List.mem_cons]
    cases s with
    | char d =>
      rw [ih (isDecoded_char_cons.1 h), Sym.char.injEq]
      exact or_congr_left (Utf8.mem_encodeChar_iff hc)
    | raw b =>
      obtain ⟨hfirst, ht⟩ := isDecoded_raw_cons.1 h
      rw [ih ht]
      refine or_congr_left ⟨fun hb => ?_, nofun⟩
      have hsome : Utf8.firstChar? (b :: Utf8.encode t) = some c := by
        rw [Utf8.firstChar?_eq_some_iff, String.utf8EncodeChar_eq_singleton hc,
          List.mem_singleton.1 hb]
        exact ⟨Utf8.encode t, rfl⟩
      rw [hsome] at hfirst
      cases hfirst

end Text

namespace Utf8

variable {c : Char} (hc : c.utf8Size = 1)

include hc

/-- What is on the two sides of a byte of ASCII is read as if it stood alone. -/
theorem decode_append_cons (x y : List UInt8) :
    decode (x ++ c.val.toUInt8 :: y) = decode x ++ .char c :: decode y := by
  have hdecoded := (Text.isDecoded_append_cons hc).2
    ⟨Text.isDecoded_decode x, Text.isDecoded_decode y⟩
  have hencode : encode (decode x ++ .char c :: decode y) = x ++ c.val.toUInt8 :: y := by
    rw [encode, List.flatMap_append, List.flatMap_cons, ← encode, ← encode, encode_decode,
      encode_decode, encodeSym, String.utf8EncodeChar_eq_singleton hc]
    rfl
  rw [Text.IsDecoded, hencode] at hdecoded
  exact hdecoded

theorem mem_decode_iff (bytes : List UInt8) : .char c ∈ decode bytes ↔ c.val.toUInt8 ∈ bytes := by
  rw [← (Text.isDecoded_decode bytes).mem_encode_iff hc, encode_decode]

end Utf8

namespace Text

/-- A text that is read from bytes without a NUL, as the system takes and gives them. -/
def IsCString (t : Text) : Prop := IsDecoded t ∧ nul ∉ t

instance : DecidablePred IsCString := fun _ => inferInstanceAs (Decidable (_ ∧ _))

end Text

end TreeSieve
