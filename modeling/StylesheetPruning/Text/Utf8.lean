import StylesheetPruning.Text.Basic

/-!
# Text from bytes

**Decoding.** Bytes are read as strict UTF-8, one character at a time. Where
no character can be read, decoding stops with the number of bytes read, which
is the length of the longest prefix that is a text.

**Results.** `decodeUtf8_eq_ok_iff`: decoding gives a text exactly from the
encoding of that text.
-/

namespace StylesheetPruning

/-- Read characters from `offset` on, with those read so far in reverse. -/
def decodeUtf8.go (bytes : ByteArray) : Nat → Nat → Text → Except Nat Text
  | 0, _, read => .ok read.reverse
  | fuel + 1, offset, read =>
      if offset < bytes.size then
        match bytes.utf8DecodeChar? offset with
        | some c => go bytes fuel (offset + c.utf8Size) (c :: read)
        | none => .error offset
      else
        .ok read.reverse

/--
The text that the bytes encode, or the length of the longest prefix of them
that encodes a text. A character has at least one byte, so as many steps as
there are bytes are enough.
-/
def decodeUtf8 (bytes : ByteArray) : Except Nat Text :=
  decodeUtf8.go bytes bytes.size 0 []

/-- The UTF-8 encoding of a text. -/
def encodeUtf8 (text : Text) : ByteArray :=
  (String.ofList text).toByteArray

theorem decodeUtf8.go_eq_ok (bytes : ByteArray) {fuel offset : Nat}
    {read text : Text} (hfuel : bytes.size ≤ offset + fuel)
    (hoffset : offset ≤ bytes.size)
    (h : decodeUtf8.go bytes fuel offset read = .ok text) :
    ∃ rest, text = read.reverse ++ rest ∧
      bytes.extract offset bytes.size = rest.utf8Encode := by
  induction fuel generalizing offset read with
  | zero =>
      simp only [decodeUtf8.go, Except.ok.injEq] at h
      have heq : offset = bytes.size := by omega
      subst heq
      exact ⟨[], by simp [h], by simp⟩
  | succ fuel ih =>
      simp only [decodeUtf8.go] at h
      split at h
      · split at h
        · next c hc =>
            have hsize := ByteArray.le_size_of_utf8DecodeChar?_eq_some hc
            have hpos := c.utf8Size_pos
            obtain ⟨rest, rfl, hrest⟩ := ih (by omega) hsize h
            refine ⟨c :: rest, by simp, ?_⟩
            rw [ByteArray.utf8DecodeChar?_eq_utf8DecodeChar?_extract] at hc
            have hsplit := ByteArray.eq_of_utf8DecodeChar?_eq_some hc
            rw [hsplit, ByteArray.extract_extract, ← List.singleton_append,
              List.utf8Encode_append, ← hrest]
            simp only [ByteArray.size_extract, Nat.min_self,
              List.utf8Encode_singleton]
            congr 2
            omega
        · simp at h
      · simp only [Except.ok.injEq] at h
        have heq : offset = bytes.size := by omega
        subst heq
        exact ⟨[], by simp [h], by simp⟩

/-- Bytes that decode are the encoding of their text. -/
theorem eq_encodeUtf8_of_decodeUtf8 {bytes : ByteArray} {text : Text}
    (h : decodeUtf8 bytes = .ok text) : bytes = encodeUtf8 text := by
  obtain ⟨rest, rfl, hrest⟩ :=
    decodeUtf8.go_eq_ok bytes (by omega) (by omega) h
  simpa [encodeUtf8] using hrest

theorem decodeUtf8.go_utf8Encode (before rest read : Text) {fuel : Nat}
    (hfuel : rest.length ≤ fuel) :
    decodeUtf8.go (before ++ rest).utf8Encode fuel before.utf8Encode.size read =
      .ok (read.reverse ++ rest) := by
  induction rest generalizing before read fuel with
  | nil =>
      cases fuel with
      | zero => simp [decodeUtf8.go]
      | succ fuel => simp [decodeUtf8.go]
  | cons c rest ih =>
      cases fuel with
      | zero => simp at hfuel
      | succ fuel =>
          have hsplit : (before ++ c :: rest).utf8Encode =
              before.utf8Encode ++ (c :: rest).utf8Encode :=
            List.utf8Encode_append
          have hcons : (c :: rest).utf8Encode =
              [c].utf8Encode ++ rest.utf8Encode := by
            rw [← List.utf8Encode_append, List.singleton_append]
          have hone : [c].utf8Encode.size = c.utf8Size := by
            simp [List.utf8Encode_singleton]
          have hpos := c.utf8Size_pos
          have hsize : before.utf8Encode.size <
              (before ++ c :: rest).utf8Encode.size := by
            rw [hsplit, ByteArray.size_append, hcons, ByteArray.size_append, hone]
            omega
          have hchar : (before ++ c :: rest).utf8Encode.utf8DecodeChar?
              before.utf8Encode.size = some c := by
            rw [ByteArray.utf8DecodeChar?_eq_utf8DecodeChar?_extract, hsplit,
              ByteArray.extract_append_eq_right rfl (by simp),
              List.utf8DecodeChar?_utf8Encode_cons]
          have hnext : before.utf8Encode.size + c.utf8Size =
              (before ++ [c]).utf8Encode.size := by
            rw [List.utf8Encode_append, ByteArray.size_append, hone]
          simp only [decodeUtf8.go, if_pos hsize, hchar, hnext]
          have hrest : rest.length ≤ fuel := by simpa using hfuel
          have h := ih (before ++ [c]) (c :: read) hrest
          simpa using h

/-- Every text has at least one byte for each character. -/
theorem length_le_size_utf8Encode (text : Text) :
    text.length ≤ text.utf8Encode.size := by
  induction text with
  | nil => simp
  | cons c rest ih =>
      have hpos := c.utf8Size_pos
      have hcons : (c :: rest).utf8Encode =
          [c].utf8Encode ++ rest.utf8Encode := by
        rw [← List.utf8Encode_append, List.singleton_append]
      rw [hcons, ByteArray.size_append]
      simp only [List.utf8Encode_singleton, List.length_cons]
      simp
      omega

/-- The encoding of a text decodes to the text. -/
theorem decodeUtf8_encodeUtf8 (text : Text) :
    decodeUtf8 (encodeUtf8 text) = .ok text := by
  have h := decodeUtf8.go_utf8Encode [] text [] (length_le_size_utf8Encode text)
  simpa [decodeUtf8, encodeUtf8] using h

/-- Bytes decode to a text exactly when they are its encoding. -/
theorem decodeUtf8_eq_ok_iff {bytes : ByteArray} {text : Text} :
    decodeUtf8 bytes = .ok text ↔ bytes = encodeUtf8 text := by
  constructor
  · exact eq_encodeUtf8_of_decodeUtf8
  · rintro rfl
    exact decodeUtf8_encodeUtf8 text

end StylesheetPruning
