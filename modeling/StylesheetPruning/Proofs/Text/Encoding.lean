import StylesheetPruning.Text.Utf8

/-!
# Bytes of a text

The bytes below 128 of an encoding stand for the ASCII characters of the text,
and for nothing else. A mark of ASCII characters can be looked for among the
bytes as well as among the characters.

**Results.**
* `mem_utf8EncodeChar_iff`: an ASCII byte in a character is that character.
* `exists_split_of_bytes`: a text can be cut at every ASCII byte.
* `onByte_lead`: a predicate of ASCII can be tried on the first byte.
-/

namespace StylesheetPruning

section Bytes

/-- The bytes of the encoding of a text. -/
def bytes (text : Text) : List UInt8 :=
  (encodeUtf8 text).data.toList

theorem bytes_eq_flatMap (text : Text) :
    bytes text = text.flatMap String.utf8EncodeChar := by
  simp [bytes, encodeUtf8, List.utf8Encode]

@[simp] theorem bytes_nil : bytes [] = [] := by
  simp [bytes_eq_flatMap]

@[simp] theorem bytes_cons (c : Char) (rest : Text) :
    bytes (c :: rest) = String.utf8EncodeChar c ++ bytes rest := by
  simp [bytes_eq_flatMap]

@[simp] theorem bytes_append (text text' : Text) :
    bytes (text ++ text') = bytes text ++ bytes text' := by
  simp [bytes_eq_flatMap]

@[simp] theorem length_bytes (text : Text) :
    (bytes text).length = byteLength text := by
  rw [bytes_eq_flatMap]
  induction text with
  | nil =>
      rfl
  | cons c rest ih =>
      rw [List.flatMap_cons, List.length_append, ih, byteLength_cons,
        String.length_utf8EncodeChar]

/-- Only the empty text has no bytes. -/
theorem bytes_eq_nil_iff {text : Text} : bytes text = [] ↔ text = [] := by
  rw [← List.length_eq_zero_iff, length_bytes, byteLength_eq_zero_iff]

/-- The bytes of a text, put into an array, decode to the text. -/
theorem decodeUtf8_bytes (text : Text) :
    decodeUtf8 (bytes text).toByteArray = .ok text := by
  rw [decodeUtf8_eq_ok_iff]
  apply ByteArray.ext
  apply Array.toList_inj.mp
  rw [List.toList_data_toByteArray]
  rfl

theorem isBoundary_append (left right : Text) :
    IsBoundary (left ++ right) (byteLength left) := by
  simp [IsBoundary]

end Bytes

section Ascii

variable {c d : Char}

/-- An ASCII character is one byte. -/
theorem utf8EncodeChar_of_lt (h : c.toNat < 128) :
    String.utf8EncodeChar c = [c.toUInt8] := by
  have hle : c.val.toNat ≤ 127 := Nat.le_of_lt_succ h
  simp only [String.utf8EncodeChar, if_pos hle]
  rfl

/-- Every byte of another character is above those of ASCII. -/
theorem le_toNat_of_mem_utf8EncodeChar
    (h : 128 ≤ c.toNat) {b : UInt8} (hb : b ∈ String.utf8EncodeChar c) :
    128 ≤ b.toNat := by
  have hgt : ¬ c.val.toNat ≤ 127 := Nat.not_le_of_lt h
  simp only [String.utf8EncodeChar, if_neg hgt] at hb
  -- Each byte of the three layouts is a remainder plus 128 or more.
  split at hb
  · simp only [List.mem_cons, List.not_mem_nil, or_false] at hb
    rcases hb with rfl | rfl <;> simp only [UInt8.toNat_ofNat'] <;> omega
  · split at hb
    · simp only [List.mem_cons, List.not_mem_nil, or_false] at hb
      rcases hb with rfl | rfl | rfl <;> simp only [UInt8.toNat_ofNat'] <;> omega
    · simp only [List.mem_cons, List.not_mem_nil, or_false] at hb
      rcases hb with rfl | rfl | rfl | rfl <;>
        simp only [UInt8.toNat_ofNat'] <;> omega

theorem toNat_toUInt8 (h : c.toNat < 128) : c.toUInt8.toNat = c.toNat := by
  have hmod : c.toUInt8.toNat = c.toNat % 256 := rfl
  omega

/-- A character of more than one byte has no byte of ASCII behind its first. -/
theorem exists_utf8EncodeChar_eq_cons (c : Char) :
    ∃ b others, String.utf8EncodeChar c = b :: others ∧
      ∀ b' ∈ others, 128 ≤ b'.toNat := by
  rcases Nat.lt_or_ge c.toNat 128 with hlt | hge
  · exact ⟨c.toUInt8, [], utf8EncodeChar_of_lt hlt, by simp⟩
  · obtain ⟨b, others, hc⟩ :
        ∃ b others, String.utf8EncodeChar c = b :: others := by
      apply List.exists_cons_of_ne_nil
      intro hnil
      have hlength := String.length_utf8EncodeChar c
      have hpos := c.utf8Size_pos
      rw [hnil, List.length_nil] at hlength
      omega
    refine ⟨b, others, hc, ?_⟩
    intro b' hb'
    exact le_toNat_of_mem_utf8EncodeChar hge (by simp [hc, hb'])

/-- A run of an ASCII character has its byte as many times. -/
theorem bytes_replicate (hc : c.toNat < 128) (n : Nat) :
    bytes (List.replicate n c) = List.replicate n c.toUInt8 := by
  induction n with
  | zero =>
      exact bytes_nil
  | succ n ih =>
      rw [List.replicate_succ, bytes_cons, utf8EncodeChar_of_lt hc, ih]
      rfl

theorem ne_toUInt8_of_le
    {b : UInt8} (hc : c.toNat < 128) (hb : 128 ≤ b.toNat) : b ≠ c.toUInt8 := by
  rintro rfl
  rw [toNat_toUInt8 hc] at hb
  omega

/-- An ASCII byte in the encoding of a character is that character. -/
theorem mem_utf8EncodeChar_iff (hd : d.toNat < 128) :
    d.toUInt8 ∈ String.utf8EncodeChar c ↔ c = d := by
  constructor
  · intro h
    have hbyte := toNat_toUInt8 hd
    rcases Nat.lt_or_ge c.toNat 128 with hlt | hge
    · rw [utf8EncodeChar_of_lt hlt, List.mem_singleton] at h
      have hc := toNat_toUInt8 hlt
      rw [← h, hbyte] at hc
      exact (Char.toNat_inj.mp hc).symm
    · have hle := le_toNat_of_mem_utf8EncodeChar hge h
      omega
  · rintro rfl
    simp [utf8EncodeChar_of_lt hd]

/-- A text can be cut at every ASCII byte of its encoding. -/
theorem exists_split_of_bytes
    {text : Text} {before behind : List UInt8} (hd : d.toNat < 128)
    (h : bytes text = before ++ d.toUInt8 :: behind) :
    ∃ left right, text = left ++ d :: right ∧
      bytes left = before ∧ bytes right = behind := by
  induction text generalizing before with
  | nil =>
      simp at h
  | cons c rest ih =>
      rw [bytes_cons] at h
      rcases List.append_eq_append_iff.mp h with
        ⟨others, hbefore, hrest⟩ | ⟨others, hc, hbehind⟩
      · obtain ⟨left, right, rfl, hleft, hright⟩ := ih hrest
        exact ⟨c :: left, right, rfl, by simp [hleft, hbefore], hright⟩
      · cases others with
        | nil =>
            simp only [List.append_nil, List.nil_append] at hc hbehind
            have hrest : bytes rest = [] ++ d.toUInt8 :: behind := hbehind.symm
            obtain ⟨left, right, rfl, hleft, hright⟩ := ih hrest
            refine ⟨c :: left, right, rfl, ?_, hright⟩
            rw [bytes_cons, hleft, hc, List.append_nil]
        | cons b others =>
            simp only [List.cons_append, List.cons.injEq] at hbehind
            obtain ⟨rfl, rfl⟩ := hbehind
            have hcd : c = d := (mem_utf8EncodeChar_iff hd).mp (by simp [hc])
            subst hcd
            rw [utf8EncodeChar_of_lt hd] at hc
            obtain ⟨rfl, rfl⟩ : before = [] ∧ others = [] := by
              simpa [List.singleton_eq_append_iff] using hc
            exact ⟨[], rest, rfl, by simp, by simp⟩

/-- The first character of a text is that of ASCII which its first byte is. -/
theorem head?_eq_some_of_bytes
    {text : Text} (hd : d.toNat < 128)
    (h : (bytes text).head? = some d.toUInt8) : text.head? = some d := by
  obtain ⟨behind, hbehind⟩ := List.head?_eq_some_iff.mp h
  have hsplit : bytes text = [] ++ d.toUInt8 :: behind := hbehind
  obtain ⟨left, right, rfl, hleft, -⟩ := exists_split_of_bytes hd hsplit
  rw [bytes_eq_nil_iff.mp hleft]
  rfl

end Ascii

section Predicates

variable {p : Char → Bool}

/-- Whether a byte, as the character of that number, satisfies a predicate. -/
def onByte (p : Char → Bool) (b : UInt8) : Bool :=
  p (Char.ofUInt8 b)

/-- Whether a predicate holds of characters of ASCII only. -/
def OfAscii (p : Char → Bool) : Prop :=
  ∀ c, p c = true → c.toNat < 128

theorem toNat_ofUInt8 (b : UInt8) : (Char.ofUInt8 b).toNat = b.toNat :=
  b.toNat_toUInt32

theorem OfAscii.eq_false (hp : OfAscii p) {c : Char} (h : 128 ≤ c.toNat) :
    p c = false := by
  rw [Bool.eq_false_iff]
  intro hc
  exact absurd (hp c hc) (Nat.not_lt_of_le h)

/-- The first byte of a character shows whether it is one of ASCII, and which. -/
theorem onByte_lead (hp : OfAscii p) {c : Char} {b : UInt8}
    {others : List UInt8} (h : String.utf8EncodeChar c = b :: others) :
    onByte p b = p c := by
  rcases Nat.lt_or_ge c.toNat 128 with hlt | hge
  · rw [utf8EncodeChar_of_lt hlt] at h
    obtain ⟨rfl, rfl⟩ := List.cons.inj h
    have hc : Char.ofUInt8 c.toUInt8 = c := by
      rw [← Char.toNat_inj, toNat_ofUInt8, toNat_toUInt8 hlt]
    rw [onByte, hc]
  · have hb := le_toNat_of_mem_utf8EncodeChar hge (b := b) (by simp [h])
    rw [← toNat_ofUInt8] at hb
    rw [onByte, hp.eq_false hb, hp.eq_false hge]

/-- A run of characters of ASCII is read off the bytes. -/
theorem takeWhile_take_bytes (hp : OfAscii p) (n : Nat) (text : Text) :
    ((bytes text).take n).takeWhile (onByte p) =
      bytes ((text.take n).takeWhile p) := by
  induction text generalizing n with
  | nil =>
      simp
  | cons c rest ih =>
      cases n with
      | zero =>
          simp
      | succ n =>
          obtain ⟨b, others, hc, -⟩ := exists_utf8EncodeChar_eq_cons c
          rw [bytes_cons, hc, List.cons_append, List.take_succ_cons,
            List.take_succ_cons, List.takeWhile_cons, List.takeWhile_cons,
            onByte_lead hp hc]
          split
          · next hpc =>
              have hlt : c.toNat < 128 := hp c hpc
              rw [utf8EncodeChar_of_lt hlt] at hc
              obtain ⟨rfl, rfl⟩ := List.cons.inj hc
              rw [List.nil_append, ih, bytes_cons, utf8EncodeChar_of_lt hlt]
              rfl
          · rw [bytes_nil]

theorem any_head?_bytes (hp : OfAscii p) (text : Text) :
    (bytes text).head?.any (onByte p) = text.head?.any p := by
  cases text with
  | nil =>
      rw [bytes_nil]
      rfl
  | cons c rest =>
      obtain ⟨b, others, hc, -⟩ := exists_utf8EncodeChar_eq_cons c
      rw [bytes_cons, hc]
      exact onByte_lead hp hc

/-- A text of ASCII has a byte for each character. -/
theorem byteLength_of_ascii {text : Text} (h : ∀ c ∈ text, c.toNat < 128) :
    byteLength text = text.length := by
  induction text with
  | nil =>
      rfl
  | cons c rest ih =>
      obtain ⟨hc, hrest⟩ := List.forall_mem_cons.mp h
      have hsize := String.length_utf8EncodeChar c
      rw [utf8EncodeChar_of_lt hc, List.length_singleton] at hsize
      rw [byteLength_cons, ih hrest, List.length_cons, ← hsize, Nat.add_comm]

end Predicates

end StylesheetPruning
