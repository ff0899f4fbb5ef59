import StylesheetPruning.Proofs.Text.Encoding

/-!
# How far bytes are a text

Bytes that are no text as a whole have prefixes that are, the empty one among
them. Decoding reads all of these prefixes, and reports the length of the
longest.

**Results.**
* `decodeUtf8_go_append`: a prefix that is a text is read to its end.
* `decodeUtf8_eq_error_iff`: decoding fails exactly on bytes that are no text,
  with the length of their longest prefix that is one.
-/

namespace StylesheetPruning

section Prefixes

@[simp] theorem encodeUtf8_nil : encodeUtf8 [] = ByteArray.empty := by
  simp [encodeUtf8]

@[simp] theorem encodeUtf8_append (text text' : Text) :
    encodeUtf8 (text ++ text') = encodeUtf8 text ++ encodeUtf8 text' := by
  simp [encodeUtf8]

@[simp] theorem size_encodeUtf8 (text : Text) :
    (encodeUtf8 text).size = byteLength text :=
  length_bytes text

theorem encodeUtf8_cons (c : Char) (rest : Text) :
    encodeUtf8 (c :: rest) = [c].utf8Encode ++ encodeUtf8 rest := by
  exact (encodeUtf8_append [c] rest).trans (by simp [encodeUtf8])

/-- The length of the longest prefix of bytes that is a text. -/
structure IsLongestText (bytes : ByteArray) (n : Nat) : Prop where
  /-- A text of this length stands in front. -/
  isText : ∃ text behind, bytes = encodeUtf8 text ++ behind ∧
    byteLength text = n
  /-- No longer text does. -/
  longest : ∀ text behind, bytes = encodeUtf8 text ++ behind →
    byteLength text ≤ n

theorem IsLongestText.unique
    {bytes : ByteArray} {n n' : Nat}
    (h : IsLongestText bytes n) (h' : IsLongestText bytes n') : n = n' := by
  obtain ⟨text, behind, htext, rfl⟩ := h.isText
  obtain ⟨text', behind', htext', rfl⟩ := h'.isText
  exact Nat.le_antisymm (h'.longest text behind htext)
    (h.longest text' behind' htext')

end Prefixes

section Reading

/-- The character behind a text is the next one to be read. -/
theorem utf8DecodeChar?_append (before : Text) (c : Char) (behind : ByteArray) :
    (encodeUtf8 before ++ ([c].utf8Encode ++ behind)).utf8DecodeChar?
      (byteLength before) = some c := by
  rw [ByteArray.utf8DecodeChar?_eq_utf8DecodeChar?_extract,
    ByteArray.extract_append_eq_right (size_encodeUtf8 before).symm (by simp)]
  exact List.utf8DecodeChar?_utf8Encode_singleton_append

/-- A prefix that is a text is read to its end. -/
theorem decodeUtf8_go_append
    {bytes behind : ByteArray} {before rest : Text}
    (hbytes : bytes = encodeUtf8 (before ++ rest) ++ behind)
    (fuel : Nat) (read : Text) :
    decodeUtf8.go bytes (rest.length + fuel) (byteLength before) read =
      decodeUtf8.go bytes fuel (byteLength (before ++ rest))
        (rest.reverse ++ read) := by
  induction rest generalizing before read with
  | nil =>
      simp
  | cons c rest ih =>
      have hsplit : bytes = encodeUtf8 before ++
          ([c].utf8Encode ++ (encodeUtf8 rest ++ behind)) := by
        rw [hbytes, encodeUtf8_append, encodeUtf8_cons]
        simp only [ByteArray.append_assoc]
      have hchar : bytes.utf8DecodeChar? (byteLength before) = some c := by
        rw [hsplit]
        exact utf8DecodeChar?_append before c _
      have hsize : byteLength before < bytes.size := by
        have hpos := c.utf8Size_pos
        rw [hbytes, ByteArray.size_append, size_encodeUtf8, byteLength_append,
          byteLength_cons]
        omega
      have hnext : byteLength before + c.utf8Size =
          byteLength (before ++ [c]) := by
        simp
      have hbefore : bytes = encodeUtf8 ((before ++ [c]) ++ rest) ++ behind := by
        rw [hbytes, List.append_assoc, List.singleton_append]
      have hrest := ih hbefore (c :: read)
      rw [List.length_cons, Nat.add_right_comm, decodeUtf8.go, if_pos hsize,
        hchar]
      simp only [hnext, hrest]
      simp

/-- Where reading fails, a text ends. -/
theorem exists_of_decodeUtf8_go
    {bytes behind : ByteArray} {before : Text}
    (hbytes : bytes = encodeUtf8 before ++ behind)
    {fuel n : Nat} {read : Text}
    (h : decodeUtf8.go bytes fuel (byteLength before) read = .error n) :
    ∃ rest behind', bytes = encodeUtf8 (before ++ rest) ++ behind' ∧
      byteLength (before ++ rest) = n := by
  induction fuel generalizing before behind read with
  | zero =>
      simp [decodeUtf8.go] at h
  | succ fuel ih =>
      simp only [decodeUtf8.go] at h
      split at h
      · split at h
        · next c hc =>
            have hextract : bytes.extract (byteLength before) bytes.size =
                behind := by
              rw [hbytes]
              exact ByteArray.extract_append_eq_right
                (size_encodeUtf8 before).symm (by simp)
            rw [ByteArray.utf8DecodeChar?_eq_utf8DecodeChar?_extract,
              hextract] at hc
            obtain ⟨behind', hbehind⟩ :=
              ByteArray.exists_of_utf8DecodeChar?_eq_some hc
            have hbytes' : bytes = encodeUtf8 (before ++ [c]) ++ behind' := by
              rw [hbytes, hbehind, encodeUtf8_append, ByteArray.append_assoc,
                ← List.utf8Encode_singleton]
              simp [encodeUtf8]
            have hnext : byteLength before + c.utf8Size =
                byteLength (before ++ [c]) := by
              simp
            rw [hnext] at h
            obtain ⟨rest, behind'', hrest, hn⟩ := ih hbytes' h
            refine ⟨c :: rest, behind'', ?_, ?_⟩
            · simpa using hrest
            · simpa using hn
        · simp only [Except.error.injEq] at h
          exact ⟨[], behind, by simpa using hbytes, by simpa using h⟩
      · cases h

/-- Where decoding fails, the longest text in front has ended. -/
theorem isLongestText_of_decodeUtf8
    {bytes : ByteArray} {n : Nat} (h : decodeUtf8 bytes = .error n) :
    IsLongestText bytes n := by
  constructor
  · have hstart : bytes = encodeUtf8 [] ++ bytes := by
      simp
    obtain ⟨text, behind, hbytes, hn⟩ := exists_of_decodeUtf8_go hstart h
    exact ⟨text, behind, hbytes, hn⟩
  · intro text behind hbytes
    have hfuel : text.length + (bytes.size - text.length) = bytes.size := by
      have hlength : text.length ≤ (encodeUtf8 text).size := by
        simpa [encodeUtf8] using length_le_size_utf8Encode text
      rw [hbytes, ByteArray.size_append]
      omega
    have hstart : bytes = encodeUtf8 ([] ++ text) ++ behind := hbytes
    have hread := decodeUtf8_go_append hstart (bytes.size - text.length) []
    rw [hfuel] at hread
    obtain ⟨rest, behind', hrest, rfl⟩ :=
      exists_of_decodeUtf8_go hstart (hread.symm.trans h)
    rw [byteLength_append, List.nil_append]
    exact Nat.le_add_right _ _

/-- Decoding fails on what is no text, at the end of the longest text in front. -/
theorem decodeUtf8_eq_error_iff {bytes : ByteArray} {n : Nat} :
    decodeUtf8 bytes = .error n ↔
      (∀ text, bytes ≠ encodeUtf8 text) ∧ IsLongestText bytes n := by
  constructor
  · intro h
    refine ⟨?_, isLongestText_of_decodeUtf8 h⟩
    rintro text rfl
    rw [decodeUtf8_encodeUtf8] at h
    cases h
  · rintro ⟨htext, hlongest⟩
    cases h : decodeUtf8 bytes with
    | ok text =>
        exact absurd (decodeUtf8_eq_ok_iff.mp h) (htext text)
    | error m =>
        rw [(isLongestText_of_decodeUtf8 h).unique hlongest]

end Reading

end StylesheetPruning
