import StylesheetPruning.Proofs.Selector.Pieces

/-!
# Members of a list are read where they stand

A member of a selector list is read by offsets into the whole list. What it
says does not depend on the rest of the list: the same texts at another place,
with other whitespace around them, say the same.

**Two texts.** Pieces stand in the masked text and are read from another text
of the same length. Nothing is assumed of the characters of that text.

**Results.**
* `contentOf_shift`: pieces that are moved with their text say the same.
* `content_ofPiece`: a member by the two texts between its commas.
-/

namespace StylesheetPruning

namespace Piece

section Shifting

/-- A piece that stands `n` bytes further back. -/
def shift (n : Nat) (piece : Piece) : Piece :=
  ⟨n + piece.start, piece.text⟩

theorem trim_shift (n : Nat) (piece : Piece) :
    (piece.shift n).trim = piece.trim.shift n := by
  simp only [trim, shift, Nat.add_assoc]

theorem place_shift (gap n start : Nat) (texts : List Text) :
    place gap (n + start) texts = (place gap start texts).map (shift n) := by
  induction texts generalizing start with
  | nil =>
      rfl
  | cons text texts ih =>
      have hstart : n + start + byteLength text + gap =
          n + (start + byteLength text + gap) := by
        omega
      rw [place, place, hstart, ih]
      rfl

theorem split_shift (isSeparator : Char → Bool) (n : Nat) (piece : Piece) :
    (piece.shift n).split isSeparator =
      (piece.split isSeparator).map (shift n) :=
  place_shift 1 n piece.start _

theorem cut_shift (isMark : Char → Bool) (n : Nat) (piece : Piece) :
    (piece.shift n).cut isMark = (piece.cut isMark).map (shift n) :=
  place_shift 0 n piece.start _

theorem piecesOf_shift (n : Nat) (piece : Piece) :
    SimpleSelector.piecesOf (piece.shift n) =
      (SimpleSelector.piecesOf piece).map (shift n) := by
  have hcut : (fun compound : Piece =>
        (compound.shift n).cut SimpleSelector.isMark) =
      fun compound =>
        (compound.cut SimpleSelector.isMark).map (shift n) := by
    funext compound
    exact cut_shift _ n compound
  rw [SimpleSelector.piecesOf, split_shift, List.flatMap_map, hcut,
    ← List.map_flatMap, SimpleSelector.piecesOf]

theorem Stands.stop_le {text : Text} {piece : Piece} (h : piece.Stands text) :
    piece.span.stop ≤ byteLength text := by
  obtain ⟨left, right, rfl, hleft⟩ := h
  simp only [span, byteLength_append, ← hleft]
  omega

end Shifting

section Surrounding

theorem takeWhile_isSpace_append
    {text : Text} (h : text.all isSpace = false) (back : Text) :
    (text ++ back).takeWhile isSpace = text.takeWhile isSpace ∧
      (text ++ back).dropWhile isSpace = text.dropWhile isSpace ++ back := by
  induction text with
  | nil =>
      cases h
  | cons c text ih =>
      rw [List.cons_append]
      cases hc : isSpace c with
      | false =>
          simp [hc]
      | true =>
          rw [List.all_cons, hc, Bool.true_and] at h
          obtain ⟨htake, hdrop⟩ := ih h
          simp [hc, htake, hdrop]

/-- Whitespace around a text that is not blank is trimmed away. -/
theorem trim_surrounded
    {front text back : Text} (hfront : ∀ c ∈ front, isSpace c = true)
    (htext : text.all isSpace = false) (hback : ∀ c ∈ back, isSpace c = true)
    (start : Nat) :
    (Piece.mk start (front ++ (text ++ back))).trim =
      (Piece.mk (start + byteLength front) text).trim := by
  obtain ⟨htake, hdrop⟩ := takeWhile_isSpace_append htext back
  have hstart : (Piece.mk start (front ++ (text ++ back))).trim.start =
      (Piece.mk (start + byteLength front) text).trim.start := by
    simp only [trim, List.takeWhile_append_of_pos hfront, htake,
      byteLength_append, Nat.add_assoc]
  have hbody : (Piece.mk start (front ++ (text ++ back))).trim.text =
      (Piece.mk (start + byteLength front) text).trim.text := by
    rw [text_trim, text_trim, trimmed, trimmed,
      List.dropWhile_append_of_pos hfront, hdrop,
      trimEnd_append_of_forall hback]
  rw [Piece.mk.injEq]
  exact ⟨hstart, hbody⟩

theorem text_trim_of_blank
    {piece : Piece} (h : piece.text.all isSpace = true) :
    piece.trim.text = [] := by
  have hdrop : (piece.text ++ []).dropWhile isSpace = [] :=
    List.dropWhile_append_of_pos (List.all_eq_true.mp h)
  rw [List.append_nil] at hdrop
  rw [text_trim, trimmed, hdrop]
  rfl

end Surrounding

end Piece

namespace SimpleSelector

section Places

variable {masked uncommented : Text}

/-- A member of a compound says the same where it is moved with its text. -/
theorem ofPiece?_shift
    (hlength : byteLength masked = byteLength uncommented)
    {piece : Piece} (h : piece.Stands masked) (left right : Text)
    (position : Nat) :
    ofPiece? (left ++ (uncommented ++ right)) (piece.shift (byteLength left))
        position =
      ofPiece? uncommented piece position := by
  have hstop := (Piece.stands_trim h).stop_le
  have happend := breakExposed_append (fun c => c = ':') piece.trim.text
  rw [hlength] at hstop
  have hlengths := congrArg byteLength happend
  simp only [Piece.span, byteLength_append] at hstop hlengths
  have hsource := slice_shift left uncommented right piece.trim.start hstop
  have hbody := slice_shift left uncommented right piece.trim.start
    (show piece.trim.start + byteLength
      (breakExposed (fun c => c = ':') piece.trim.text).1 ≤ _ by omega)
  have hsuffix := slice_shift left uncommented right
    (piece.trim.start + byteLength
      (breakExposed (fun c => c = ':') piece.trim.text).1) hstop
  rw [ofPiece?, ofPiece?, Piece.trim_shift]
  simp only [Piece.shift, Piece.span, Nat.add_assoc] at hsuffix ⊢
  rw [hsource, hbody, hsuffix]

theorem ofPieces_shift
    (hlength : byteLength masked = byteLength uncommented)
    {pieces : List Piece} (h : ∀ piece ∈ pieces, piece.Stands masked)
    (left right : Text) (position : Nat) :
    ofPieces (left ++ (uncommented ++ right)) position
        (pieces.map (Piece.shift (byteLength left))) =
      ofPieces uncommented position pieces := by
  induction pieces generalizing position with
  | nil =>
      rfl
  | cons piece pieces ih =>
      obtain ⟨hpiece, hpieces⟩ := List.forall_mem_cons.mp h
      rw [List.map_cons, ofPieces, ofPieces, ofPiece?_shift hlength hpiece]
      cases ofPiece? uncommented piece position with
      | none =>
          exact ih hpieces position
      | some part =>
          simp only [ih hpieces]

theorem stands_of_mem_piecesOf
    {inner part : Piece} (h : inner.Stands masked)
    (hpart : part ∈ piecesOf inner) : part.Stands masked := by
  obtain ⟨compound, hcompound, hpart⟩ := List.mem_flatMap.mp hpart
  exact Piece.stands_cut
    (Piece.stands_split (fun c => Selector.utf8Size_of_isCombinator) h
      hcompound) hpart

end Places

end SimpleSelector

namespace Selector

section Contents

/-- What a selector says, without its place. -/
abbrev Content := Text × List SimpleSelector

/-- The trimmed text of a selector, and its conditions. -/
def content (selector : Selector) : Content :=
  (selector.trimmed, selector.parts)

/-- What is read from a text at a piece without whitespace around it. -/
def contentOf (uncommented : Text) (inner : Piece) : Content :=
  (slice uncommented inner.span,
    SimpleSelector.ofPieces uncommented 0 (SimpleSelector.piecesOf inner))

/-- Pieces that are moved with their text say the same. -/
theorem contentOf_shift
    {masked uncommented : Text}
    (hlength : byteLength masked = byteLength uncommented)
    {inner : Piece} (h : inner.Stands masked) (left right : Text) :
    contentOf (left ++ (uncommented ++ right))
        (inner.shift (byteLength left)) =
      contentOf uncommented inner := by
  have hstop := h.stop_le
  rw [hlength] at hstop
  have hpieces := SimpleSelector.ofPieces_shift hlength
    (fun part => SimpleSelector.stands_of_mem_piecesOf h) left right 0
  have hspan : (inner.shift (byteLength left)).span =
      ⟨byteLength left + inner.span.start,
        byteLength left + inner.span.stop⟩ := by
    simp only [Piece.shift, Piece.span, Nat.add_assoc]
  rw [contentOf, contentOf, Piece.piecesOf_shift, hpieces, hspan,
    slice_shift left uncommented right _ hstop]

/-- An empty piece says nothing. -/
theorem contentOf_of_text_eq_nil
    {inner : Piece} (h : inner.text = []) (uncommented : Text) :
    contentOf uncommented inner = ([], []) := by
  obtain ⟨start, text⟩ := inner
  obtain rfl : text = [] := h
  have hslice : slice uncommented ⟨start, start⟩ = [] := by
    rw [slice]
    cases htext : slice? uncommented ⟨start, start⟩ with
    | none =>
        rfl
    | some text =>
        obtain ⟨left, right, -, hleft, hstop⟩ := slice?_eq_some_iff.mp htext
        rw [Option.getD_some, ← byteLength_eq_zero_iff]
        simp only at hleft hstop
        omega
  have hpieces : SimpleSelector.piecesOf ⟨start, []⟩ = [⟨start, []⟩] := rfl
  rw [contentOf, hpieces]
  exact congrArg (·, []) hslice

/-- A member by the two texts between its commas, whitespace around it. -/
theorem content_ofPiece
    {masked uncommented front back : Text}
    (hlength : byteLength masked = byteLength uncommented)
    (hfront : ∀ c ∈ front, isSpace c = true)
    (hback : ∀ c ∈ back, isSpace c = true)
    (left right : Text) (offset : Nat) :
    (ofPiece (left ++ (front ++ (uncommented ++ (back ++ right)))) offset
        ⟨byteLength left, front ++ (masked ++ back)⟩).content =
      contentOf uncommented (Piece.mk 0 masked).trim := by
  cases hmasked : masked.all isSpace with
  | true =>
      -- Nothing is left of a blank member, wherever it stands.
      have hall : (front ++ (masked ++ back)).all isSpace = true := by
        rw [List.all_append, List.all_append, hmasked,
          List.all_eq_true.mpr hfront, List.all_eq_true.mpr hback]
        rfl
      refine (contentOf_of_text_eq_nil ?_ _).trans
        (contentOf_of_text_eq_nil ?_ _).symm
      · exact Piece.text_trim_of_blank hall
      · exact Piece.text_trim_of_blank hmasked
  | false =>
      have htrim : (Piece.mk (byteLength left)
            (front ++ (masked ++ back))).trim =
          (Piece.mk 0 masked).trim.shift (byteLength (left ++ front)) := by
        rw [Piece.trim_surrounded hfront hmasked hback, ← Piece.trim_shift,
          byteLength_append]
        rfl
      have hshift := contentOf_shift hlength
        (Piece.stands_trim (Piece.stands_self masked)) (left ++ front)
        (back ++ right)
      rw [← hshift, ← htrim, List.append_assoc]
      rfl

end Contents

end Selector

end StylesheetPruning
