import StylesheetPruning.Proofs.Selector.Locality
import StylesheetPruning.Proofs.Selector.Serialization
import StylesheetPruning.Proofs.Text.Encoding

/-!
# Identifiers cut at their escapes

A scan for structure steps over an escape by its number of bytes. The reading
of an identifier goes through an escape character by character and never asks
for its length. Both take the same characters for the escape.

**Segments.** An identifier is cut from the left. At a backslash the segment is
the escape, elsewhere it is one character. The value of a segment is what it
stands for.

**Bytes.** `escapeLength` counts the bytes of an escape. It sees digits and
whitespace in the bytes, since these are characters of ASCII, and takes the
length of any other character from its first byte.

**Results.**
* `resolveEscapes_eq_flatMap`: an identifier stands for the values of its
  segments.
* `escapeLength_append`: the bytes of an escape are those of its characters.
* `cutFrom_iff`: the only cut by numbers of bytes is that into segments.
* `segmented_identifier`: both readings of an identifier agree.
-/

namespace StylesheetPruning

section Values

/-- What a segment stands for. -/
def segmentValue : Text → Text
  | [] => []
  | c :: tail =>
      if c = '\\' then
        let digits := tail.takeWhile isHexDigit
        if digits.isEmpty then tail
        else [charOfCodePoint (ofDigits 16 digits)]
      else
        c :: tail

/-- The segments of an identifier, from the left. -/
def segments : Text → List Text
  | [] => []
  | c :: rest =>
      if c = '\\' then
        (c :: escapeTail rest) :: segments (rest.drop (escapeTail rest).length)
      else
        [c] :: segments rest
termination_by text => text.length
decreasing_by
  all_goals
    simp only [List.length_cons, List.length_drop]
    omega

theorem escapeTail_append_drop (rest : Text) :
    escapeTail rest ++ rest.drop (escapeTail rest).length = rest := by
  obtain ⟨after, hafter⟩ := exists_eq_escapeTail_append rest
  have hdrop : (escapeTail rest ++ after).drop (escapeTail rest).length =
      after := List.drop_left
  rw [← hafter] at hdrop
  rw [hdrop, ← hafter]

/-- Nothing of an identifier is lost between its segments. -/
theorem flatten_segments (text : Text) : (segments text).flatten = text := by
  fun_induction segments text with
  | case1 =>
      rfl
  | case2 rest ih =>
      rw [List.flatten_cons, ih, List.cons_append, escapeTail_append_drop]
  | case3 c rest _ ih =>
      rw [List.flatten_cons, ih, List.singleton_append]

theorem segmentValue_singleton {c : Char} (h : c ≠ '\\') :
    segmentValue [c] = [c] := by
  rw [segmentValue, if_neg h]

theorem segmentValue_literal {c : Char} (h : isHexDigit c = false) :
    segmentValue ['\\', c] = [c] := by
  simp [segmentValue, h]

theorem segmentValue_code {c : Char} (h : isHexDigit c = true) (tail : Text) :
    segmentValue ('\\' :: c :: tail) =
      [charOfCodePoint ((tail.takeWhile isHexDigit).foldl
        (fun value c => value * 16 + hexValue c) (hexValue c))] := by
  simp [segmentValue, h, ofDigits]

/-- A character that is no further digit ends an escape. -/
theorem run_digits_end {value count : Nat} {c : Char}
    (h : ¬ (count < 6 ∧ isHexDigit c = true)) (rest : Text) :
    (Resolving.digits value count).run (c :: rest) =
      charOfCodePoint value ::
        Resolving.plain.run (if isSpace c then rest else c :: rest) := by
  cases hspace : isSpace c with
  | true =>
      simp only [Resolving.run, Resolving.step, if_neg h, hspace, if_true,
        List.singleton_append]
  | false =>
      simp only [Resolving.run, Resolving.step, if_neg h, hspace,
        Bool.false_eq_true, if_false, List.cons_append]

/-- Behind digits, the reading goes on as far as the escape does. -/
theorem run_digits_hexTail
    {value count n : Nat} (h : count + n = 6) (rest : Text) :
    (Resolving.digits value count).run rest =
      charOfCodePoint (((hexTail n rest).takeWhile isHexDigit).foldl
          (fun value c => value * 16 + hexValue c) value) ::
        Resolving.plain.run (rest.drop (hexTail n rest).length) := by
  induction rest generalizing value count n with
  | nil =>
      simp [hexTail, Resolving.run, Resolving.finish]
  | cons c rest ih =>
      cases n with
      | zero =>
          rw [run_digits_end (by omega), hexTail]
          cases hspace : isSpace c with
          | false =>
              rfl
          | true =>
              have hhex : isHexDigit c = false := by
                rw [Bool.eq_false_iff]
                intro hhex
                rw [isSpace_of_isHexDigit hhex] at hspace
                cases hspace
              simp [hhex]
      | succ n =>
          cases hhex : isHexDigit c with
          | true =>
              have hstep : (Resolving.digits value count).step c =
                  (.digits (value * 16 + hexValue c) (count + 1), []) := by
                rw [Resolving.step, if_pos ⟨by omega, hhex⟩]
              have hrest :=
                @ih (value * 16 + hexValue c) (count + 1) n (by omega)
              simp only [Resolving.run, hstep, hrest, hexTail, hhex, if_true,
                List.nil_append, List.takeWhile_cons, List.foldl_cons,
                List.length_cons, List.drop_succ_cons]
          | false =>
              rw [run_digits_end (by simp [hhex]), hexTail]
              cases hspace : isSpace c <;> simp [hhex]

/-- What an escape writes is the value of its segment. -/
theorem run_escape (rest : Text) :
    Resolving.plain.run ('\\' :: rest) =
      segmentValue ('\\' :: escapeTail rest) ++
        Resolving.plain.run (rest.drop (escapeTail rest).length) := by
  cases rest with
  | nil =>
      rfl
  | cons c rest =>
      rw [escapeTail_cons]
      cases hhex : isHexDigit c with
      | true =>
          rw [run_opened_cons hhex, run_digits_hexTail (n := 5) rfl, if_pos rfl,
            segmentValue_code hhex, Nat.zero_mul, Nat.zero_add]
          rfl
      | false =>
          rw [run_literal hhex, if_neg (by simp), segmentValue_literal hhex]
          rfl

/-- An identifier stands for the values of its segments. -/
theorem resolveEscapes_eq_flatMap (text : Text) :
    resolveEscapes text = (segments text).flatMap segmentValue := by
  rw [resolveEscapes]
  fun_induction segments text with
  | case1 =>
      rfl
  | case2 rest ih =>
      rw [run_escape, ih, List.flatMap_cons]
  | case3 c rest hc ih =>
      rw [run_plain hc, ih, List.flatMap_cons, segmentValue_singleton hc,
        List.singleton_append]

/-- The code points of characters, with U+FFFD in place of all others. -/
theorem toNat_charOfCodePoint (n : Nat) :
    (charOfCodePoint n).toNat =
      if n < 0xD800 ∨ 0xDFFF < n ∧ n ≤ 0x10FFFF then n else 0xFFFD := by
  have hvalid : n.isValidChar ↔ n < 0xD800 ∨ 0xDFFF < n ∧ n ≤ 0x10FFFF := by
    rw [Nat.isValidChar]
    omega
  rw [charOfCodePoint]
  split
  · next h =>
      rw [if_pos (hvalid.mp h), Char.ofNat, dif_pos h]
      rfl
  · next h =>
      rw [if_neg (mt hvalid.mpr h)]
      rfl

end Values

section Lengths

/-- Length of an encoding of several bytes, as its first byte tells it. -/
def leadWidth (b : UInt8) : Nat :=
  if 0xF0 ≤ b then 4
  else if 0xE0 ≤ b then 3
  else 2

/--
Number of bytes of an escape without digits, by the byte behind its backslash
and the number of bytes that are left of the text.
-/
def literalLength (room : Nat) : Option UInt8 → Nat
  | some b => if 0x80 ≤ b then min (1 + leadWidth b) room else 2
  | none => 1

/-- Number of bytes of the escape whose backslash is byte `i`. -/
def escapeLength (source : List UInt8) (i : Nat) : Nat :=
  let digits := ((source.drop (i + 1)).take 6).takeWhile (onByte isHexDigit)
  let length := 1 + digits.length
  if digits.isEmpty then
    literalLength (source.length - i) source[i + 1]?
  else if source[i + length]?.any (onByte isSpace) then
    length + 1
  else
    length

theorem ofAscii_isHexDigit : OfAscii isHexDigit := by
  intro c h
  have hle : ∀ d : Char, c ≤ d → c.toNat ≤ d.toNat := fun _ hd => hd
  simp only [isHexDigit, Bool.or_eq_true, Bool.and_eq_true,
    decide_eq_true_eq] at h
  rcases h with (hdigit | ⟨-, hhigh⟩) | ⟨-, hhigh⟩
  · exact lt_of_isDigit hdigit
  · exact Nat.lt_of_le_of_lt (hle 'f' hhigh) (by decide)
  · exact Nat.lt_of_le_of_lt (hle 'F' hhigh) (by decide)

theorem ofAscii_isSpace : OfAscii isSpace := by
  intro c h
  simp only [isSpace, Bool.or_eq_true, decide_eq_true_eq] at h
  rcases h with (((rfl | rfl) | rfl) | rfl) | rfl <;> decide

theorem leadWidth_eq (b : UInt8) :
    leadWidth b =
      if 240 ≤ b.toNat then 4 else if 224 ≤ b.toNat then 3 else 2 := by
  simp only [leadWidth, UInt8.le_iff_toNat_le]
  rfl

/-- The first byte of an encoding tells its length. -/
theorem leadWidth_lead {c : Char} {b : UInt8} {others : List UInt8}
    (hc : 128 ≤ c.toNat) (h : String.utf8EncodeChar c = b :: others) :
    leadWidth b = c.utf8Size := by
  have hgt : ¬ c.val.toNat ≤ 127 := Nat.not_le_of_lt hc
  rw [← String.length_utf8EncodeChar, h, leadWidth_eq]
  simp only [String.utf8EncodeChar, if_neg hgt] at h
  -- The three layouts have first bytes of different ranges.
  split at h
  · obtain ⟨rfl, rfl⟩ := List.cons.inj h
    rw [UInt8.toNat_ofNat', if_neg (by omega), if_neg (by omega)]
    rfl
  · split at h
    · obtain ⟨rfl, rfl⟩ := List.cons.inj h
      rw [UInt8.toNat_ofNat', if_neg (by omega), if_pos (by omega)]
      rfl
    · obtain ⟨rfl, rfl⟩ := List.cons.inj h
      rw [UInt8.toNat_ofNat', if_pos (by omega)]
      rfl

/-- Without digits, an escape has one character or none. -/
theorem literalLength_head? (rest : Text) :
    literalLength (1 + byteLength rest) (bytes rest).head? =
      1 + byteLength (rest.take 1) := by
  cases rest with
  | nil =>
      rw [bytes_nil]
      rfl
  | cons c rest =>
      obtain ⟨b, others, hc, -⟩ := exists_utf8EncodeChar_eq_cons c
      have hsize := String.length_utf8EncodeChar c
      rw [bytes_cons, hc, List.cons_append, List.head?_cons, literalLength,
        byteLength_cons, List.take_succ_cons, List.take_zero, byteLength_cons,
        byteLength_nil]
      rcases Nat.lt_or_ge c.toNat 128 with hlt | hge
      · rw [utf8EncodeChar_of_lt hlt] at hc hsize
        obtain ⟨rfl, -⟩ := List.cons.inj hc
        have hb : ¬ 0x80 ≤ c.toUInt8 := by
          rw [UInt8.le_iff_toNat_le, toNat_toUInt8 hlt]
          exact Nat.not_le_of_lt hlt
        rw [if_neg hb, ← hsize]
        rfl
      · have hb : 0x80 ≤ b :=
          le_toNat_of_mem_utf8EncodeChar hge (by simp [hc])
        rw [if_pos hb, leadWidth_lead hge hc]
        omega

/-- Length of an escape by the bytes behind its backslash. -/
theorem escapeLength_eq (left : Text) (behind : List UInt8) :
    escapeLength (bytes left ++ 0x5C :: behind) (byteLength left) =
      let digits := (behind.take 6).takeWhile (onByte isHexDigit)
      let length := 1 + digits.length
      if digits.isEmpty then
        literalLength (1 + behind.length) behind.head?
      else if (behind.drop digits.length).head?.any (onByte isSpace) then
        length + 1
      else
        length := by
  have hdrop : ∀ n, (bytes left ++ 0x5C :: behind).drop
      (byteLength left + (1 + n)) = behind.drop n := by
    intro n
    rw [← length_bytes, List.drop_length_add_append, Nat.add_comm 1 n,
      List.drop_succ_cons]
  have hget : ∀ n, (bytes left ++ 0x5C :: behind)[byteLength left + (1 + n)]? =
      (behind.drop n).head? := by
    intro n
    rw [← List.head?_drop, hdrop]
  have hlength : (bytes left ++ 0x5C :: behind).length - byteLength left =
      1 + behind.length := by
    rw [List.length_append, length_bytes, List.length_cons]
    omega
  have hbehind := hdrop 0
  have hhead := hget 0
  rw [Nat.add_zero, List.drop_zero] at hbehind hhead
  rw [escapeLength, hbehind, hhead, hlength]
  simp only [hget]

/-- The whitespace that ends an escape is one byte. -/
theorem byteLength_filter_isSpace (after : Text) :
    byteLength ((after.take 1).filter isSpace) =
      if after.head?.any isSpace then 1 else 0 := by
  cases after with
  | nil =>
      rfl
  | cons c after =>
      cases hspace : isSpace c with
      | false =>
          simp [hspace]
      | true =>
          have hsize : byteLength [c] = 1 :=
            byteLength_of_ascii (by simpa using ofAscii_isSpace c hspace)
          simpa [hspace] using hsize

/-- The bytes of an escape are those of its characters. -/
theorem escapeLength_append (left rest : Text) :
    escapeLength (bytes (left ++ '\\' :: rest)) (byteLength left) =
      byteLength ('\\' :: escapeTail rest) := by
  have hbytes : bytes (left ++ '\\' :: rest) =
      bytes left ++ 0x5C :: bytes rest := by
    rw [bytes_append, bytes_cons]
    rfl
  have hslash : byteLength ('\\' :: escapeTail rest) =
      1 + byteLength (escapeTail rest) := byteLength_cons _ _
  have hprefix : (rest.take 6).takeWhile isHexDigit <+: rest :=
    (List.takeWhile_prefix _).trans (List.take_prefix 6 rest)
  rw [hbytes, escapeLength_eq, takeWhile_take_bytes ofAscii_isHexDigit, hslash,
    escapeTail]
  generalize (rest.take 6).takeWhile isHexDigit = digits at hprefix ⊢
  obtain ⟨after, rfl⟩ := hprefix
  by_cases hnil : digits = []
  · subst hnil
    rw [bytes_nil, length_bytes]
    exact literalLength_head? _
  · have hempty : digits.isEmpty = false := by simpa using hnil
    have hnone : (bytes digits).isEmpty = false := by
      simpa [bytes_eq_nil_iff] using hnil
    have hdrop : (bytes (digits ++ after)).drop (byteLength digits) =
        bytes after := by
      rw [bytes_append, ← length_bytes, List.drop_left]
    simp only [hempty, hnone, hdrop, List.drop_left, length_bytes,
      any_head?_bytes ofAscii_isSpace, byteLength_append,
      byteLength_filter_isSpace, Bool.false_eq_true, if_false]
    split
    · exact Nat.add_assoc _ _ _
    · rw [Nat.add_zero]

/-- An escaped character of two bytes, and an escape that ends with a tab. -/
example : escapeLength (bytes "\\é\\1F600\tx".toList) 0 = 3 ∧
    escapeLength (bytes "\\é\\1F600\tx".toList) 3 = 7 := by
  decide +kernel

end Lengths

section Cuts

/-- Where the segment at byte `i` ends, if a character begins there. -/
def segmentStop? (text : Text) (i : Nat) : Option Nat :=
  if (bytes text)[i]? = some 0x5C then
    some (i + escapeLength (bytes text) i)
  else
    match splitAt? text i with
    | some (_, c :: _) => some (i + c.utf8Size)
    | _ => none

/-- The spans into which a text is cut from byte `i` on. -/
inductive CutFrom (text : Text) : Nat → List Span → Prop
  | done {i : Nat} (h : byteLength text ≤ i) : CutFrom text i []
  | segment {i j : Nat} {spans : List Span} (h : i < byteLength text)
      (hstop : segmentStop? text i = some j) :
      CutFrom text j spans → CutFrom text i (⟨i, j⟩ :: spans)

theorem CutFrom.unique {text : Text} {i : Nat} {spans spans' : List Span}
    (h : CutFrom text i spans) (h' : CutFrom text i spans') :
    spans = spans' := by
  induction h generalizing spans' with
  | done hle =>
      cases h' with
      | done =>
          rfl
      | segment hlt =>
          exact absurd hlt (Nat.not_lt_of_le hle)
  | segment hlt hstop _ ih =>
      cases h' with
      | done hle =>
          exact absurd hlt (Nat.not_lt_of_le hle)
      | segment _ hstop' hrest =>
          rw [hstop, Option.some.injEq] at hstop'
          subst hstop'
          rw [ih hrest]

theorem getElem?_bytes_eq_backslash_iff (left : Text) (c : Char) (rest : Text) :
    (bytes (left ++ c :: rest))[byteLength left]? = some 0x5C ↔ c = '\\' := by
  obtain ⟨b, others, hc, -⟩ := exists_utf8EncodeChar_eq_cons c
  have hbyte : (bytes (left ++ c :: rest))[byteLength left]? = some b := by
    rw [bytes_append, bytes_cons, hc, ← length_bytes,
      List.getElem?_append_right (Nat.le_refl _), Nat.sub_self]
    rfl
  rw [hbyte, Option.some.injEq]
  constructor
  · rintro rfl
    have hmem : '\\'.toUInt8 ∈ String.utf8EncodeChar c := by
      rw [hc]
      exact List.mem_cons_self
    exact (mem_utf8EncodeChar_iff (by decide)).mp hmem
  · rintro rfl
    exact (List.cons.inj hc).1.symm

theorem segmentStop?_plain (left : Text) {c : Char} (h : c ≠ '\\')
    (rest : Text) :
    segmentStop? (left ++ c :: rest) (byteLength left) =
      some (byteLength (left ++ [c])) := by
  have hbyte := mt (getElem?_bytes_eq_backslash_iff left c rest).mp h
  rw [segmentStop?, if_neg hbyte, splitAt?_append,
    byteLength_append, byteLength_cons, byteLength_nil]
  rfl

theorem segmentStop?_escape (left rest : Text) :
    segmentStop? (left ++ '\\' :: rest) (byteLength left) =
      some (byteLength (left ++ '\\' :: escapeTail rest)) := by
  have hbyte := (getElem?_bytes_eq_backslash_iff left '\\' rest).mpr rfl
  rw [segmentStop?, if_pos hbyte, escapeLength_append, byteLength_append]

/-- A segment in front of a cut becomes part of the text in front of it. -/
theorem CutFrom.cons
    {left segment after : Text} {parts : List Text} (hne : segment ≠ [])
    (hstop : segmentStop? (left ++ (segment ++ after)) (byteLength left) =
      some (byteLength (left ++ segment)))
    (h : CutFrom (left ++ segment ++ after) (byteLength (left ++ segment))
      ((Piece.place 0 (byteLength (left ++ segment)) parts).map Piece.span)) :
    CutFrom (left ++ (segment ++ after)) (byteLength left)
      ((Piece.place 0 (byteLength left) (segment :: parts)).map Piece.span) := by
  have hpos : 0 < byteLength segment :=
    Nat.pos_of_ne_zero (mt byteLength_eq_zero_iff.mp hne)
  have hlt : byteLength left < byteLength (left ++ (segment ++ after)) := by
    rw [byteLength_append, byteLength_append]
    omega
  rw [List.append_assoc] at h
  rw [byteLength_append] at h hstop
  exact .segment hlt hstop h

/-- Behind a text, the cut goes through the segments one after the other. -/
theorem cutFrom_place (left rest : Text) :
    CutFrom (left ++ rest) (byteLength left)
      ((Piece.place 0 (byteLength left) (segments rest)).map Piece.span) := by
  fun_induction segments rest generalizing left with
  | case1 =>
      rw [List.append_nil]
      exact .done (Nat.le_refl _)
  | case2 rest ih =>
      have hstop := segmentStop?_escape left rest
      have hrest := escapeTail_append_drop rest
      generalize rest.drop (escapeTail rest).length = after at ih hrest ⊢
      have htext : '\\' :: rest = ('\\' :: escapeTail rest) ++ after := by
        rw [List.cons_append, hrest]
      rw [htext] at hstop ⊢
      exact CutFrom.cons (by simp) hstop (ih _)
  | case3 c rest hc ih =>
      have hstop := segmentStop?_plain left hc rest
      exact @CutFrom.cons left [c] rest _ (by simp) hstop (ih _)

/-- The only cut by numbers of bytes is that into segments. -/
theorem cutFrom_iff {text : Text} {spans : List Span} :
    CutFrom text 0 spans ↔
      spans = (Piece.place 0 0 (segments text)).map Piece.span := by
  have hcut := cutFrom_place [] text
  constructor
  · intro h
    exact h.unique hcut
  · rintro rfl
    exact hcut

theorem stands_segment {text : Text} {piece : Piece}
    (h : piece ∈ Piece.place 0 0 (segments text)) : piece.Stands text := by
  obtain ⟨front, back, htext, hstart⟩ := Piece.exists_of_mem_place _ 0 h
  rw [flatten_segments] at htext
  exact (Piece.stands_self text).part htext hstart

end Cuts

section Agreement

theorem Piece.Stands.isBoundary_stop {text : Text} {piece : Piece}
    (h : piece.Stands text) : IsBoundary text piece.span.stop := by
  obtain ⟨left, right, rfl, hleft⟩ := h
  have hstop := isBoundary_append (left ++ piece.text) right
  rwa [List.append_assoc, byteLength_append, hleft] at hstop

theorem Piece.Stands.slice?_span {text : Text} {piece : Piece}
    (h : piece.Stands text) : slice? text piece.span = some piece.text := by
  obtain ⟨left, right, rfl, hleft⟩ := h
  refine slice?_eq_some_iff.mpr ⟨left, right, by simp, hleft, ?_⟩
  rw [hleft]
  rfl

/-- How the two readings of an identifier agree. -/
structure Segmented (text : Text) (spans : List Span) (parts : List Text) :
    Prop where
  /-- From the left, the text is cut into these spans and in no other way. -/
  cut : ∀ others, CutFrom text 0 others ↔ others = spans
  /-- By its bytes, an escape is what the scan of a selector steps over. -/
  escape : ∀ left rest, text = left ++ '\\' :: rest →
    escapeLength (bytes text) (byteLength left) =
      byteLength ('\\' :: escapeTail rest)
  /-- Every segment lies in the text and ends between two characters. -/
  within : ∀ span ∈ spans,
    span.stop ≤ byteLength text ∧ IsBoundary text span.stop
  /-- The parts are what stands there. -/
  parts_eq : spans.map (slice? text) = parts.map some
  /-- The identifier stands for the values of its parts. -/
  value : resolveEscapes text = parts.flatMap segmentValue

/--
An identifier is cut at its escapes by their bytes as it is read by their
characters, and an escape by code point stands for that character or for
U+FFFD.
-/
theorem segmented_identifier (text : Text) :
    (∃ spans parts, Segmented text spans parts) ∧
      ∀ n, (charOfCodePoint n).toNat =
        if n < 0xD800 ∨ 0xDFFF < n ∧ n ≤ 0x10FFFF then n else 0xFFFD := by
  refine ⟨⟨(Piece.place 0 0 (segments text)).map Piece.span, segments text, ?_⟩,
    toNat_charOfCodePoint⟩
  constructor
  case cut =>
    exact fun _ => cutFrom_iff
  case escape =>
    rintro left rest rfl
    exact escapeLength_append left rest
  case within =>
    intro span hspan
    obtain ⟨piece, hpiece, rfl⟩ := List.mem_map.mp hspan
    have hstands := stands_segment hpiece
    exact ⟨hstands.stop_le, hstands.isBoundary_stop⟩
  case parts_eq =>
    have hslices : ((Piece.place 0 0 (segments text)).map Piece.span).map
          (slice? text) =
        ((Piece.place 0 0 (segments text)).map Piece.text).map some := by
      rw [List.map_map, List.map_map]
      refine List.map_congr_left ?_
      intro piece hpiece
      exact (stands_segment hpiece).slice?_span
    rw [hslices, Piece.map_text_place]
  case value =>
    exact resolveEscapes_eq_flatMap text

end Agreement

end StylesheetPruning
