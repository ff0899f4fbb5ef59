import StylesheetPruning.Proofs.Selector.Walking
import StylesheetPruning.Proofs.Text.Slicing
import StylesheetPruning.Selector.List

/-!
# Pieces that stand in a text

Where the masked text is the uncommented text, every piece is read from the
place at which it stands, so a selector list can be read without offsets.

**Readers.** `SimpleSelector.ofText?` reads a simple selector,
`SimpleSelector.ofTexts` reads several in order, and `Selector.partsOf` reads
a selector.

**Results.**
* `stands_trim`, `stands_split`, `stands_cut`: pieces of a piece that stands
  in a text stand there too.
* `readList_self`: a selector list by the texts of its members.
-/

namespace StylesheetPruning

section Trimming

/-- A text without the whitespace at its end. -/
def trimEnd (text : Text) : Text :=
  (text.reverse.dropWhile isSpace).reverse

/-- A text without the whitespace at its two ends. -/
def trimmed (text : Text) : Text :=
  trimEnd (text.dropWhile isSpace)

@[simp] theorem trimEnd_nil : trimEnd [] = [] := rfl

theorem trimEnd_cons (c : Char) (rest : Text) :
    trimEnd (c :: rest) =
      if trimEnd rest = [] ∧ isSpace c = true then []
      else c :: trimEnd rest := by
  rw [trimEnd, List.reverse_cons, List.dropWhile_append]
  cases hrest : rest.reverse.dropWhile isSpace with
  | nil =>
      by_cases hc : isSpace c = true <;> simp [trimEnd, hrest, hc]
  | cons d front =>
      simp [trimEnd, hrest]

theorem trimEnd_cons_of_not_isSpace
    {c : Char} (h : isSpace c = false) (rest : Text) :
    trimEnd (c :: rest) = c :: trimEnd rest := by
  simp [trimEnd_cons, h]

theorem trimEnd_of_forall {text : Text} (h : ∀ c ∈ text, isSpace c = false) :
    trimEnd text = text := by
  induction text with
  | nil =>
      rfl
  | cons c text ih =>
      rw [trimEnd_cons_of_not_isSpace (h c (by simp)),
        ih (fun d hd => h d (by simp [hd]))]

/-- Whitespace in front of something else stays. -/
theorem trimEnd_append {back : Text} (h : trimEnd back ≠ []) (text : Text) :
    trimEnd (text ++ back) = text ++ trimEnd back := by
  induction text with
  | nil =>
      rfl
  | cons c text ih =>
      have hne : trimEnd (text ++ back) ≠ [] := by
        rw [ih]
        simp [h]
      rw [List.cons_append, trimEnd_cons, if_neg (fun hnil => hne hnil.1), ih]
      rfl

/-- What does not end with whitespace is left as it is. -/
theorem trimEnd_append_of_eq_self
    {back : Text} (hne : back ≠ []) (h : trimEnd back = back) (text : Text) :
    trimEnd (text ++ back) = text ++ back := by
  rw [trimEnd_append (by rwa [h]), h]

theorem trimEnd_append_of_forall
    {back : Text} (h : ∀ c ∈ back, isSpace c = true) (text : Text) :
    trimEnd (text ++ back) = trimEnd text := by
  have hback : ∀ c ∈ back.reverse, isSpace c = true := by
    intro c hc
    exact h c (List.mem_reverse.mp hc)
  rw [trimEnd, List.reverse_append, List.dropWhile_append_of_pos hback,
    trimEnd]

/-- Only whitespace is taken away. -/
theorem exists_eq_trimEnd_append (text : Text) :
    ∃ back, text = trimEnd text ++ back ∧ ∀ c ∈ back, isSpace c = true := by
  induction text with
  | nil =>
      exact ⟨[], rfl, by simp⟩
  | cons c text ih =>
      obtain ⟨back, htext, hback⟩ := ih
      rw [trimEnd_cons]
      split
      · next h =>
          rw [h.1, List.nil_append] at htext
          refine ⟨c :: text, rfl, ?_⟩
          rw [htext]
          simpa [h.2] using hback
      · refine ⟨back, ?_, hback⟩
        rw [List.cons_append, ← htext]

theorem trimEnd_trimEnd (text : Text) : trimEnd (trimEnd text) = trimEnd text := by
  obtain ⟨back, htext, hback⟩ := exists_eq_trimEnd_append text
  have h := trimEnd_append_of_forall hback (trimEnd text)
  rw [← htext] at h
  exact h.symm

theorem mem_of_mem_trimEnd {text : Text} {c : Char} (h : c ∈ trimEnd text) :
    c ∈ text := by
  obtain ⟨back, htext, -⟩ := exists_eq_trimEnd_append text
  rw [htext]
  exact List.mem_append_left back h

theorem Hides.trimEnd {p : Char → Bool} {text : Text} (h : Hides p text) :
    Hides p (trimEnd text) := by
  obtain ⟨back, htext, -⟩ := exists_eq_trimEnd_append text
  rw [htext] at h
  exact h.left

theorem Begins.trimEnd
    {p : Char → Bool} {text : Text} (h : Begins p text)
    (hne : StylesheetPruning.trimEnd text ≠ []) :
    Begins p (StylesheetPruning.trimEnd text) := by
  obtain ⟨back, htext, -⟩ := exists_eq_trimEnd_append text
  rw [htext] at h
  exact h.left hne

/-- A text that does not begin with whitespace is trimmed at its end. -/
theorem trimmed_cons {c : Char} (h : isSpace c = false) (rest : Text) :
    trimmed (c :: rest) = c :: trimEnd rest := by
  rw [trimmed, List.dropWhile_cons_of_neg (by simp [h]),
    trimEnd_cons_of_not_isSpace h]

/-- Whitespace around a text is taken away. -/
theorem trimmed_append
    {front back : Text} (hfront : ∀ c ∈ front, isSpace c = true)
    (hback : ∀ c ∈ back, isSpace c = true)
    {c : Char} (hc : isSpace c = false) (rest : Text) :
    trimmed (front ++ (c :: rest ++ back)) = c :: trimEnd rest := by
  rw [trimmed, List.dropWhile_append_of_pos hfront, List.cons_append,
    List.dropWhile_cons_of_neg (by simp [hc]),
    trimEnd_cons_of_not_isSpace hc, trimEnd_append_of_forall hback]

theorem Piece.text_trim (piece : Piece) :
    piece.trim.text = trimmed piece.text := by
  have hdrop : piece.text.drop (piece.text.takeWhile isSpace).length =
      piece.text.dropWhile isSpace := by
    have h := List.takeWhile_append_dropWhile (p := isSpace) (l := piece.text)
    generalize piece.text.takeWhile isSpace = front at h ⊢
    rw [← h, List.drop_left]
    rw [h]
  simp only [trim, hdrop]
  rfl

end Trimming

section Standing

/-- A piece whose text stands at its place in a text. -/
def Piece.Stands (text : Text) (piece : Piece) : Prop :=
  ∃ left right, text = left ++ (piece.text ++ right) ∧
    byteLength left = piece.start

namespace Piece

theorem stands_self (text : Text) : Stands text ⟨0, text⟩ :=
  ⟨[], [], by simp, rfl⟩

theorem Stands.slice_span {text : Text} {piece : Piece} (h : piece.Stands text) :
    slice text piece.span = piece.text := by
  obtain ⟨left, right, rfl, hstart⟩ := h
  exact slice_append left piece.text right hstart.symm
    (by simp [span, hstart])

/-- A part of a piece stands where the piece stands. -/
theorem Stands.part
    {text : Text} {piece part : Piece} (h : piece.Stands text)
    {front back : Text} (htext : piece.text = front ++ (part.text ++ back))
    (hstart : part.start = piece.start + byteLength front) :
    part.Stands text := by
  obtain ⟨left, right, rfl, hleft⟩ := h
  refine ⟨left ++ front, back ++ right, ?_, ?_⟩
  · rw [htext]
    simp
  · rw [byteLength_append, hleft, hstart]

theorem stands_trim
    {text : Text} {piece : Piece} (h : piece.Stands text) :
    piece.trim.Stands text := by
  obtain ⟨back, hback, -⟩ :=
    exists_eq_trimEnd_append (piece.text.dropWhile isSpace)
  have htext : piece.text =
      piece.text.takeWhile isSpace ++ (piece.trim.text ++ back) := by
    rw [text_trim, trimmed, ← hback, List.takeWhile_append_dropWhile]
  exact h.part htext rfl

/-- A part between separators stands between two parts of the whole. -/
theorem exists_of_mem_place_splitWhere
    {isSeparator : Glyph → Bool}
    (hwidth : ∀ glyph, isSeparator glyph = true → glyph.char.utf8Size = 1)
    (glyphs : List Glyph) (start : Nat) {part : Piece}
    (h : part ∈ place 1 start
      ((splitWhere isSeparator glyphs).map (fun part => part.map Glyph.char))) :
    ∃ front back, glyphs.map Glyph.char = front ++ (part.text ++ back) ∧
      part.start = start + byteLength front := by
  induction glyphs generalizing start part with
  | nil =>
      simp only [splitWhere_nil, List.map_cons, List.map_nil, place,
        List.mem_singleton] at h
      exact ⟨[], [], by simp [h], by simp [h]⟩
  | cons glyph glyphs ih =>
      rw [splitWhere_cons] at h
      split at h
      · next hglyph =>
          rw [List.map_cons, List.map_nil, place] at h
          rcases List.mem_cons.mp h with rfl | h
          · exact ⟨[], glyph.char :: glyphs.map Glyph.char, by simp, by simp⟩
          · obtain ⟨front, back, htext, hstart⟩ := ih _ h
            refine ⟨glyph.char :: front, back, by simp [htext], ?_⟩
            rw [hstart, byteLength_cons, hwidth glyph hglyph]
            simp
            omega
      · cases hparts : splitWhere isSeparator glyphs with
        | nil =>
            exact absurd hparts (splitWhere_ne_nil isSeparator glyphs)
        | cons first others =>
            have hrest := fun part : Piece =>
              @ih (start + glyph.char.utf8Size) part
            rw [hparts, List.map_cons, place] at hrest
            rw [hparts, consFirst, List.map_cons, place] at h
            rcases List.mem_cons.mp h with rfl | h
            · obtain ⟨front, back, htext, hstart⟩ :=
                hrest _ (List.mem_cons_self)
              have hfront : front = [] := by
                rw [← byteLength_eq_zero_iff]
                simpa using hstart
              subst hfront
              exact ⟨[], back, by simp [htext], by simp⟩
            · have hplace : start + byteLength
                    ((glyph :: first).map Glyph.char) + 1 =
                  start + glyph.char.utf8Size +
                    byteLength (first.map Glyph.char) + 1 := by
                simp
                omega
              rw [hplace] at h
              obtain ⟨front, back, htext, hstart⟩ :=
                hrest part (List.mem_cons_of_mem _ h)
              refine ⟨glyph.char :: front, back, by simp [htext], ?_⟩
              rw [hstart, byteLength_cons]
              omega

theorem stands_split
    {isSeparator : Char → Bool}
    (hwidth : ∀ c, isSeparator c = true → c.utf8Size = 1)
    {text : Text} {piece part : Piece} (h : piece.Stands text)
    (hpart : part ∈ piece.split isSeparator) : part.Stands text := by
  have hglyph : ∀ glyph : Glyph,
      glyph.shows isSeparator = true → glyph.char.utf8Size = 1 := by
    intro glyph hglyph
    exact hwidth glyph.char (Bool.and_eq_true_iff.mp hglyph).2
  obtain ⟨front, back, htext, hstart⟩ :=
    exists_of_mem_place_splitWhere hglyph _ piece.start hpart
  rw [Walk.map_char_glyphs] at htext
  exact h.part htext hstart

theorem exists_of_mem_place
    (texts : List Text) (start : Nat) {part : Piece}
    (h : part ∈ place 0 start texts) :
    ∃ front back, texts.flatten = front ++ (part.text ++ back) ∧
      part.start = start + byteLength front := by
  induction texts generalizing start with
  | nil =>
      cases h
  | cons text texts ih =>
      rcases List.mem_cons.mp h with rfl | h
      · exact ⟨[], texts.flatten, by simp, by simp⟩
      · obtain ⟨front, back, htext, hstart⟩ := ih _ h
        refine ⟨text ++ front, back, by simp [htext], ?_⟩
        rw [hstart, byteLength_append]
        omega

theorem stands_cut
    {isMark : Char → Bool} {text : Text} {piece part : Piece}
    (h : piece.Stands text) (hpart : part ∈ piece.cut isMark) :
    part.Stands text := by
  obtain ⟨front, back, htext, hstart⟩ :=
    exists_of_mem_place _ piece.start hpart
  rw [flatten_cutExposed] at htext
  exact h.part htext hstart

theorem map_text_place (gap start : Nat) (texts : List Text) :
    (place gap start texts).map Piece.text = texts := by
  induction texts generalizing start with
  | nil =>
      rfl
  | cons text texts ih =>
      rw [place, List.map_cons, ih]

end Piece

end Standing

namespace SimpleSelector

section Reading

/-- What is compared with a page, by the text without the suffix. -/
def valueOf (kind : Kind) (body : Text) : Text :=
  match kind with
  | .className | .identifier => resolveEscapes (behindMark body)
  | .universal | .element | .attributeName | .unknown => body

/-- Read one member of a compound by its text. -/
def ofText? (position : Nat) (text : Text) : Option SimpleSelector :=
  let (body, suffix) := breakExposed (fun c => c = ':') (trimmed text)
  if body.isEmpty then
    none
  else
    some
      { position := position
        source := trimmed text
        value := valueOf (Kind.ofText body) body
        suffix := if suffix.isEmpty then none else some suffix
        kind := Kind.ofText body }

/-- A piece says what its text says. -/
theorem ofPiece?_eq
    {text : Text} {piece : Piece} (h : piece.Stands text) (position : Nat) :
    ofPiece? text piece position = ofText? position piece.text := by
  have htrim := Piece.stands_trim h
  have happend := breakExposed_append (fun c => c = ':') (trimmed piece.text)
  have hwhole := htrim.slice_span
  rw [ofPiece?, ofText?]
  simp only [Piece.text_trim] at hwhole ⊢
  generalize breakExposed (fun c => c = ':') (trimmed piece.text) = broken
    at happend ⊢
  obtain ⟨body, suffix⟩ := broken
  obtain ⟨left, right, htext, hleft⟩ := htrim
  rw [Piece.text_trim, ← happend] at htext
  have hbody : slice text
      ⟨piece.trim.start, piece.trim.start + byteLength body⟩ = body := by
    rw [htext, List.append_assoc]
    exact slice_append left body _ hleft.symm (by simp [hleft])
  have hsuffix : slice text
      ⟨piece.trim.start + byteLength body, piece.trim.span.stop⟩ =
        suffix := by
    have hassoc : left ++ (body ++ suffix ++ right) =
        (left ++ body) ++ (suffix ++ right) := by
      simp
    rw [htext, hassoc]
    refine slice_append (left ++ body) suffix right (by simp [hleft]) ?_
    simp [Piece.span, Piece.text_trim, ← happend, hleft]
    omega
  simp only [hbody, hsuffix, hwhole, valueOf]
  cases Kind.ofText body <;> rfl

/-- Read texts in order; positions count those that ask for something. -/
def ofTexts : Nat → List Text → List SimpleSelector
  | _, [] => []
  | position, text :: rest =>
      match ofText? position text with
      | some part => part :: ofTexts (position + 1) rest
      | none => ofTexts position rest

theorem ofPieces_eq
    {text : Text} {pieces : List Piece} (h : ∀ piece ∈ pieces, piece.Stands text)
    (position : Nat) :
    ofPieces text position pieces =
      ofTexts position (pieces.map Piece.text) := by
  induction pieces generalizing position with
  | nil =>
      rfl
  | cons piece pieces ih =>
      have hpieces := ih (fun d hd => h d (by simp [hd]))
      rw [ofPieces, List.map_cons, ofTexts,
        ofPiece?_eq (h piece (by simp))]
      cases ofText? position piece.text with
      | none =>
          exact hpieces position
      | some part =>
          simp only [hpieces]

theorem ofTexts_append (position : Nat) (texts texts' : List Text) :
    ofTexts position (texts ++ texts') =
      ofTexts position texts ++
        ofTexts (position + (ofTexts position texts).length) texts' := by
  induction texts generalizing position with
  | nil =>
      rfl
  | cons text texts ih =>
      rw [List.cons_append, ofTexts, ofTexts]
      cases ofText? position text with
      | none =>
          exact ih position
      | some part =>
          simp only [ih, List.cons_append, List.length_cons]
          rw [Nat.add_assoc, Nat.add_comm 1]

end Reading

end SimpleSelector

namespace Selector

section Reading

/-- The texts of the members of the compounds of a selector. -/
def textsOf (text : Text) : List Text :=
  (splitExposed SimpleSelector.isCombinator text).flatMap
    (cutExposed SimpleSelector.isMark)

/-- The conditions of a selector that has no whitespace around it. -/
def partsOf (text : Text) : List SimpleSelector :=
  SimpleSelector.ofTexts 0 (textsOf text)

theorem utf8Size_of_isCombinator
    {c : Char} (h : SimpleSelector.isCombinator c = true) :
    c.utf8Size = 1 := by
  simp only [SimpleSelector.isCombinator, isSpace, Bool.or_eq_true,
    decide_eq_true_eq] at h
  rcases h with (((((((rfl | rfl) | rfl) | rfl) | rfl) | rfl) | rfl) | rfl) |
    rfl <;> rfl

theorem map_text_piecesOf (piece : Piece) :
    (SimpleSelector.piecesOf piece).map Piece.text = textsOf piece.text := by
  have hcut : ∀ piece : Piece,
      (piece.cut SimpleSelector.isMark).map Piece.text =
        cutExposed SimpleSelector.isMark piece.text :=
    fun piece => Piece.map_text_place 0 piece.start _
  have hsplit := Piece.map_text_place 1 piece.start
    (splitExposed SimpleSelector.isCombinator piece.text)
  rw [SimpleSelector.piecesOf, List.map_flatMap, textsOf, ← hsplit,
    List.flatMap_map]
  simp only [hcut]
  rfl

/-- Read one member of a list by its text. -/
def ofText (offset : Nat) (piece : Piece) : Selector :=
  { span := ⟨offset + piece.span.start, offset + piece.span.stop⟩
    source := piece.text
    trimmed := StylesheetPruning.trimmed piece.text
    parts := partsOf (StylesheetPruning.trimmed piece.text) }

theorem ofPiece_eq
    {text : Text} {piece : Piece} (h : piece.Stands text) (offset : Nat) :
    ofPiece text offset piece = ofText offset piece := by
  have htrim := Piece.stands_trim h
  have hpieces : ∀ part ∈ SimpleSelector.piecesOf piece.trim,
      part.Stands text := by
    intro part hpart
    obtain ⟨compound, hcompound, hpart⟩ := List.mem_flatMap.mp hpart
    exact Piece.stands_cut
      (Piece.stands_split (fun c => utf8Size_of_isCombinator) htrim hcompound)
      hpart
  simp only [ofPiece, ofText, h.slice_span, htrim.slice_span,
    SimpleSelector.ofPieces_eq hpieces, map_text_piecesOf, Piece.text_trim]
  rfl

/-- A selector list by the texts of its members. -/
theorem readList_self {text : Text} (h : text.all isSpace = false) (offset : Nat) :
    readList text text offset = (piecesOf text).map (ofText offset) := by
  rw [readList, h]
  refine List.map_congr_left ?_
  intro piece hpiece
  refine ofPiece_eq ?_ offset
  refine Piece.stands_split ?_ (Piece.stands_self text) hpiece
  intro c hc
  rw [of_decide_eq_true hc]
  rfl

end Reading

end Selector

end StylesheetPruning
