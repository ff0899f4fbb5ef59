import StylesheetPruning.Proofs.Text.Parting
import StylesheetPruning.Selector.TopLevel

/-!
# Slices of texts that were put together

**Results.**
* `slice?_append`: a slice between two texts whose lengths place it.
* `slice?_shift`: a slice within one of the texts that were put together.
* `intercalate_splitExposed`: splitting loses nothing but the separators.
* `map_slice?_place`: placed pieces stand where their texts were put.
-/

namespace StylesheetPruning

/-- The slice between two texts. -/
theorem slice?_append (left middle right : Text) {span : Span}
    (hstart : span.start = byteLength left)
    (hstop : span.stop = byteLength left + byteLength middle) :
    slice? (left ++ (middle ++ right)) span = some middle := by
  rw [slice?_eq_some_iff]
  exact ⟨left, right, by simp, hstart.symm, hstop.symm⟩

theorem slice_append (left middle right : Text) {span : Span}
    (hstart : span.start = byteLength left)
    (hstop : span.stop = byteLength left + byteLength middle) :
    slice (left ++ (middle ++ right)) span = middle := by
  rw [slice, slice?_append left middle right hstart hstop]
  rfl

section Within

/-- Of two beginnings of a text the shorter one begins the longer one. -/
theorem exists_append_of_byteLength_le
    {front back front' back' : Text} (h : front ++ back = front' ++ back')
    (hle : byteLength front ≤ byteLength front') :
    ∃ gap, front' = front ++ gap ∧ back = gap ++ back' := by
  rcases List.append_eq_append_iff.mp h with ⟨gap, rfl, rfl⟩ | ⟨gap, rfl, rfl⟩
  · exact ⟨gap, rfl, rfl⟩
  · have hnil : gap = [] := by
      rw [← byteLength_eq_zero_iff]
      simp only [byteLength_append] at hle
      omega
    subst hnil
    exact ⟨[], by simp, rfl⟩

/-- A slice within one of the texts that were put together. -/
theorem slice?_shift
    (left middle right : Text) (i : Nat) {j : Nat} (hj : j ≤ byteLength middle) :
    slice? (left ++ (middle ++ right))
        ⟨byteLength left + i, byteLength left + j⟩ =
      slice? middle ⟨i, j⟩ := by
  ext text
  simp only [slice?_eq_some_iff]
  constructor
  · rintro ⟨front, back, htext, hfront, hstop⟩
    rw [← List.append_assoc] at htext
    obtain ⟨gap, hgap, -⟩ := exists_append_of_byteLength_le htext.symm (by
      rw [byteLength_append, byteLength_append, hstop]
      omega)
    rw [List.append_assoc] at hgap
    obtain ⟨inner, rfl, rfl⟩ := exists_append_of_byteLength_le hgap (by omega)
    rw [byteLength_append] at hfront hstop
    exact ⟨inner, gap, by simp, by omega, by omega⟩
  · rintro ⟨front, back, rfl, rfl, rfl⟩
    refine ⟨left ++ front, back ++ right, by simp, by simp, ?_⟩
    rw [byteLength_append, Nat.add_assoc]

theorem slice_shift
    (left middle right : Text) (i : Nat) {j : Nat} (hj : j ≤ byteLength middle) :
    slice (left ++ (middle ++ right))
        ⟨byteLength left + i, byteLength left + j⟩ =
      slice middle ⟨i, j⟩ := by
  rw [slice, slice?_shift left middle right i hj, slice]

end Within

section Joining

variable {α β : Type}

/-- Splitting loses nothing but the separators. -/
theorem intercalate_map_splitWhere
    {isSeparator : α → Bool} {f : α → β} {mark : β}
    (hmark : ∀ item, isSeparator item = true → f item = mark)
    (items : List α) :
    List.intercalate [mark]
        ((splitWhere isSeparator items).map (fun part => part.map f)) =
      items.map f := by
  induction items with
  | nil =>
      simp
  | cons item rest ih =>
      rw [splitWhere_cons]
      have hne := splitWhere_ne_nil isSeparator rest
      cases hparts : splitWhere isSeparator rest with
      | nil =>
          exact absurd hparts hne
      | cons first others =>
          rw [hparts, List.map_cons] at ih
          split
          · next hitem =>
              rw [List.map_cons, List.map_cons, List.intercalate_cons_cons, ih]
              simp [hmark item hitem]
          · rw [consFirst, List.map_cons, List.map_cons]
            cases others with
            | nil =>
                simp only [List.map_nil, List.intercalate_singleton] at ih ⊢
                rw [ih, List.map_cons]
            | cons second others =>
                simp only [List.map_cons, List.intercalate_cons_cons] at ih ⊢
                rw [List.cons_append, List.cons_append, ih]

end Joining

theorem intercalate_splitExposed (mark : Char) (text : Text) :
    List.intercalate [mark] (splitExposed (fun c => c = mark) text) = text := by
  have hmark : ∀ glyph : Glyph,
      glyph.shows (fun c => c = mark) = true → glyph.char = mark := by
    intro glyph hglyph
    simpa [Glyph.shows] using (Bool.and_eq_true_iff.mp hglyph).2
  rw [splitExposed, intercalate_map_splitWhere hmark, Walk.map_char_glyphs]

theorem splitExposed_ne_nil (isSeparator : Char → Bool) (text : Text) :
    splitExposed isSeparator text ≠ [] := by
  simp [splitExposed, splitWhere_ne_nil]

section Placing

/--
Placed pieces stand where their texts were put, also in a text with other
characters of the same lengths.
-/
theorem map_slice?_place
    {mark : Char} (hmark : mark.utf8Size = 1)
    {parts others : List Text}
    (hparts : parts.map byteLength = others.map byteLength)
    (front back : Text) :
    (Piece.place 1 (byteLength front) parts).map
        (fun piece =>
          slice? (front ++ (List.intercalate [mark] others ++ back))
            piece.span) =
      others.map some := by
  induction parts generalizing others front with
  | nil =>
      cases others with
      | nil =>
          rfl
      | cons other rest =>
          cases hparts
  | cons part parts ih =>
      cases others with
      | nil =>
          cases hparts
      | cons other others =>
          simp only [List.map_cons, List.cons.injEq] at hparts
          obtain ⟨hpart, hparts⟩ := hparts
          cases others with
          | nil =>
              have hnil : parts = [] := by
                simpa using hparts
              subst hnil
              rw [List.intercalate_singleton, Piece.place, Piece.place,
                List.map_cons, List.map_nil,
                slice?_append front other back rfl
                  (by simp [Piece.span, hpart])]
              rfl
          | cons second others =>
              have hrest := ih hparts (front ++ (other ++ [mark]))
              have hoffset : byteLength (front ++ (other ++ [mark])) =
                  byteLength front + byteLength part + 1 := by
                simp [hpart, hmark]
                omega
              have htext : front ++
                    (List.intercalate [mark] (other :: second :: others) ++
                      back) =
                  front ++ (other ++ [mark]) ++
                    (List.intercalate [mark] (second :: others) ++ back) := by
                simp
              have hfirst : front ++
                    (List.intercalate [mark] (other :: second :: others) ++
                      back) =
                  front ++ (other ++ ([mark] ++
                    (List.intercalate [mark] (second :: others) ++ back))) := by
                simp
              rw [hoffset, ← htext] at hrest
              rw [Piece.place, List.map_cons, hrest, hfirst,
                slice?_append front other _ rfl (by simp [Piece.span, hpart])]
              rfl

theorem map_slice_place
    {mark : Char} (hmark : mark.utf8Size = 1)
    {parts others : List Text}
    (hparts : parts.map byteLength = others.map byteLength)
    (front back : Text) :
    (Piece.place 1 (byteLength front) parts).map
        (fun piece =>
          slice (front ++ (List.intercalate [mark] others ++ back))
            piece.span) =
      others := by
  have h := congrArg (List.map (fun text? : Option Text => text?.getD []))
    (map_slice?_place hmark hparts front back)
  rw [List.map_map, List.map_map] at h
  exact h.trans (List.map_id others)

/-- The last placed piece ends where the texts end. -/
theorem getLast?_place
    {mark : Char} (hmark : mark.utf8Size = 1)
    {parts : List Text} (hparts : parts ≠ []) (start : Nat) :
    (Piece.place 1 start parts).getLast?.map (fun piece => piece.span.stop) =
      some (start + byteLength (List.intercalate [mark] parts)) := by
  induction parts generalizing start with
  | nil =>
      exact absurd rfl hparts
  | cons part parts ih =>
      cases parts with
      | nil =>
          simp [Piece.place, Piece.span]
      | cons second parts =>
          have hrest := ih (by simp) (start + byteLength part + 1)
          have hne : Piece.place 1 (start + byteLength part + 1)
              (second :: parts) ≠ [] := by
            simp [Piece.place]
          rw [Piece.place, List.getLast?_cons_of_ne_nil hne, hrest,
            List.intercalate_cons_cons]
          simp [hmark]
          omega

end Placing

end StylesheetPruning
