import Mathlib.Data.List.Chain
import Mathlib.Data.List.Forall2
import StylesheetPruning.Proofs.Pruning.Reduction
import StylesheetPruning.Proofs.Selector.Crossing
import StylesheetPruning.Proofs.Selector.Locality
import StylesheetPruning.Proofs.Stylesheet.Calm

/-!
# The members of a selector list

A selector list is cut at the commas that stand outside of brackets and
escapes. Its members lie next to each other with one such comma between
neighbours, and each says what it says when it is read alone.

**Groups.** The cells of a list are cut where its masked text is cut. `ReadFrom`
says what a selector has to do with the group of cells it was read from.

**Results.**
* `forall₂_readList`: the selectors of a list are read from its groups.
* `readList_divides`: nothing of a list is lost between its members, and each
  of them can be read alone.
-/

namespace StylesheetPruning

section Places

namespace Piece

/-- Texts are placed behind the texts in front of them. -/
theorem place_append
    {mark : Char} (hmark : mark.utf8Size = 1)
    {parts : List Text} (hparts : parts ≠ []) (others : List Text)
    (start : Nat) :
    place 1 start (parts ++ others) =
      place 1 start parts ++
        place 1 (start + byteLength (List.intercalate [mark] parts) + 1)
          others := by
  induction parts generalizing start with
  | nil =>
      exact absurd rfl hparts
  | cons part parts ih =>
      cases parts with
      | nil =>
          simp [place]
      | cons second parts =>
          have hstart : start + byteLength part + 1 +
                byteLength (List.intercalate [mark] (second :: parts)) + 1 =
              start +
                byteLength (List.intercalate [mark] (part :: second :: parts)) +
                1 := by
            rw [List.intercalate_cons_cons]
            simp [hmark]
            omega
          rw [List.cons_append, place, ih (by simp), hstart]
          rfl

end Piece

/-- No member of a list reaches over a comma that can cut it. -/
theorem not_within_of_outsideAt
    {masked : Text} {n : Nat} (h : OutsideAt masked ',' n) :
    ∀ piece ∈ Selector.piecesOf masked,
      ¬ (piece.span.start ≤ n ∧ n < piece.span.stop) := by
  have hchar : ∀ glyph : Glyph,
      glyph.shows (fun c => c = ',') = true → glyph.char = ',' := by
    intro glyph hglyph
    simpa [Glyph.shows] using (Bool.and_eq_true_iff.mp hglyph).2
  have hsize : ∀ glyph : Glyph,
      glyph.shows (fun c => c = ',') = true → glyph.char.utf8Size = 1 := by
    intro glyph hglyph
    rw [hchar glyph hglyph]
    rfl
  obtain ⟨found, others, hglyphs, rfl⟩ := (outsideAt_iff rfl).mp h
  have hmark : Glyph.shows (fun c => c = ',') ⟨',', true⟩ = true := rfl
  have hfront : (splitWhere (Glyph.shows (fun c => c = ',')) found).map
      (fun part => part.map Glyph.char) ≠ [] := by
    simp [splitWhere_ne_nil]
  have hcomma : ','.utf8Size = 1 := rfl
  rw [Selector.piecesOf, Piece.split, splitExposed, hglyphs,
    splitWhere_append hmark, List.map_append,
    Piece.place_append hcomma hfront, intercalate_map_splitWhere hchar]
  intro piece hpiece
  simp only [Piece.span]
  rcases List.mem_append.mp hpiece with hpiece | hpiece
  · obtain ⟨front, back, hfound, hstart⟩ :=
      Piece.exists_of_mem_place_splitWhere hsize found 0 hpiece
    have hlengths := congrArg byteLength hfound
    simp only [byteLength_append] at hlengths
    omega
  · obtain ⟨front, back, -, hstart⟩ :=
      Piece.exists_of_mem_place_splitWhere hsize others _ hpiece
    omega

/-- Between neighbours there is one comma outside of brackets and escapes. -/
theorem isChain_place
    {text : Text} {parts : List Text}
    (h : Parted (fun c => c = ',') text parts)
    {left : Text} (hleft : Crosses 0 left text 0) :
    (Piece.place 1 (byteLength left) parts).IsChain (fun piece next =>
      next.span.start = piece.span.stop + 1 ∧
        OutsideAt (left ++ text) ',' piece.span.stop) := by
  induction h generalizing left with
  | last _ =>
      exact .singleton _
  | @next front back c parts _ hc hcross hback ih =>
      obtain rfl : c = ',' := of_decide_eq_true hc
      have hsingle : Crosses 0 [','] back 0 := .other rfl (.done 0 back)
      have hcomma : Crosses 0 (front ++ [',']) back 0 := hcross.trans hsingle
      have hbehind : Crosses 0 (left ++ (front ++ [','])) back 0 := by
        refine Crosses.trans ?_ hcomma
        rwa [List.append_assoc]
      have hrest := ih hbehind
      have hsize : ','.utf8Size = 1 := rfl
      have hstart : byteLength (left ++ (front ++ [','])) =
          byteLength left + byteLength front + 1 := by
        simp [hsize]
        omega
      have htext : left ++ (front ++ [',']) ++ back =
          left ++ (front ++ ',' :: back) := by
        simp
      rw [hstart, htext] at hrest
      rw [Piece.place]
      refine List.isChain_cons.mpr ⟨?_, hrest⟩
      intro next hnext
      have hfirst : next.span.start = byteLength left + byteLength front + 1 := by
        cases hback <;>
        · obtain rfl := Option.some.inj hnext
          rfl
      refine ⟨hfirst, left ++ front, back, by simp, ?_, hleft.trans hcross⟩
      simp [Piece.span]

end Places

namespace Selector

section Groups

/-- Where a member of a list that starts at an offset stands in the list. -/
def spanIn (offset : Nat) (selector : Selector) : Span :=
  ⟨selector.span.start - offset, selector.span.stop - offset⟩

theorem spanIn_ofPiece (uncommented : Text) (offset : Nat) (piece : Piece) :
    (ofPiece uncommented offset piece).spanIn offset = piece.span := by
  simp [spanIn, ofPiece]

/-- What a group of cells says as a member of a list. -/
def contentOfGroup (group : List Cell) : Content :=
  contentOf (chars group) (Piece.mk 0 (group.flatMap Cell.masked)).trim

/-- A selector that was read from a group of the cells of a list. -/
structure ReadFrom (cells : List Cell) (offset : Nat) (group : List Cell)
    (selector : Selector) : Prop where
  masked : slice? (cells.flatMap Cell.masked) (selector.spanIn offset) =
    some (group.flatMap Cell.masked)
  uncommented : slice? (chars cells) (selector.spanIn offset) =
    some (chars group)
  source : selector.source = chars group
  content : selector.content = contentOfGroup group

theorem readFrom_ofPiece (left group right : List Cell) (offset : Nat) :
    ReadFrom (left ++ (group ++ right)) offset group
      (ofPiece (chars (left ++ (group ++ right))) offset
        ⟨width left, group.flatMap Cell.masked⟩) := by
  have hleft := byteLength_masked_eq_width left
  have hgroup := byteLength_masked_eq_width group
  have hslice : slice? (chars (left ++ (group ++ right)))
        (Piece.mk (width left) (group.flatMap Cell.masked)).span =
      some (chars group) := by
    rw [chars_append, chars_append]
    refine slice?_append _ _ _ rfl ?_
    simp only [Piece.span, hgroup]
    rfl
  refine ⟨?_, ?_, ?_, ?_⟩
  · rw [spanIn_ofPiece, List.flatMap_append, List.flatMap_append]
    refine slice?_append _ _ _ hleft.symm ?_
    rw [Piece.span, hleft]
  · rw [spanIn_ofPiece, hslice]
  · rw [ofPiece, slice, hslice]
    rfl
  · have hblank : ∀ c ∈ ([] : Text), isSpace c = true := by
      simp
    have hcontent := content_ofPiece hgroup hblank hblank (chars left)
      (chars right) offset
    rw [chars_append, chars_append, contentOfGroup, ← hcontent]
    simp [width]

theorem forall₂_readFrom
    (left : List Cell) (groups : List (List Cell)) (offset : Nat) :
    List.Forall₂
      (ReadFrom (left ++ List.intercalate [codeCell ','] groups) offset) groups
      ((Piece.place 1 (width left)
          (groups.map (fun group => group.flatMap Cell.masked))).map
        (ofPiece (chars (left ++ List.intercalate [codeCell ','] groups))
          offset)) := by
  induction groups generalizing left with
  | nil =>
      exact .nil
  | cons group groups ih =>
      cases groups with
      | nil =>
          have hgroup := readFrom_ofPiece left group [] offset
          rw [List.append_nil] at hgroup
          rw [List.intercalate_singleton]
          exact .cons hgroup .nil
      | cons second groups =>
          let rest := List.intercalate [codeCell ','] (second :: groups)
          have hcells : left ++ List.intercalate [codeCell ',']
                (group :: second :: groups) =
              left ++ (group ++ codeCell ',' :: rest) := by
            rw [List.intercalate_cons_cons, List.append_assoc]
            rfl
          have hbehind : left ++ (group ++ codeCell ',' :: rest) =
              left ++ (group ++ [codeCell ',']) ++ rest := by
            simp
          have hwidth : width (left ++ (group ++ [codeCell ','])) =
              width left + byteLength (group.flatMap Cell.masked) + 1 := by
            rw [byteLength_masked_eq_width, width_append, width_append]
            exact (Nat.add_assoc _ _ _).symm
          have hrest := ih (left ++ (group ++ [codeCell ',']))
          rw [hwidth] at hrest
          rw [hcells, List.map_cons, Piece.place, List.map_cons]
          refine .cons (readFrom_ofPiece left group _ offset) ?_
          rw [hbehind]
          exact hrest

/-- Groups of cells between the commas that can cut a list. -/
structure Grouped (cells : List Cell) (groups : List (List Cell)) : Prop where
  joined : List.intercalate [codeCell ','] groups = cells
  parted : Parted (fun c => c = ',') (cells.flatMap Cell.masked)
    (groups.map (fun group => group.flatMap Cell.masked))

theorem not_isTurn_of_comma (c : Char) (h : decide (c = ',') = true) :
    Walk.isTurn c = false := by
  rw [of_decide_eq_true h]
  rfl

theorem exists_grouped (cells : List Cell) : ∃ groups, Grouped cells groups := by
  have hjoin := intercalate_splitExposed ',' (cells.flatMap Cell.masked)
  obtain ⟨groups, hgroups, hcells⟩ :=
    exists_groups (splitExposed_ne_nil _ _) hjoin.symm
  refine ⟨groups, hcells, ?_⟩
  rw [hgroups]
  exact parted_splitExposed not_isTurn_of_comma _

variable {cells : List Cell} {groups : List (List Cell)}

/-- A list that is not blank is read group by group. -/
theorem forall₂_readList
    (h : Grouped cells groups)
    (hblank : (cells.flatMap Cell.masked).all isSpace = false) (offset : Nat) :
    List.Forall₂ (ReadFrom cells offset) groups
      (readList (cells.flatMap Cell.masked) (chars cells) offset) := by
  obtain ⟨rfl, hparted⟩ := h
  rw [readList, hblank, piecesOf, Piece.split,
    hparted.splitExposed_eq not_isTurn_of_comma]
  exact forall₂_readFrom [] groups offset

variable {offset : Nat} {selectors : List Selector}

theorem map_content_of_forall₂
    (h : List.Forall₂ (ReadFrom cells offset) groups selectors) :
    selectors.map content = groups.map contentOfGroup := by
  induction h with
  | nil =>
      rfl
  | cons hread _ ih =>
      rw [List.map_cons, List.map_cons, hread.content, ih]

theorem map_source_of_forall₂
    (h : List.Forall₂ (ReadFrom cells offset) groups selectors) :
    selectors.map Selector.source = groups.map chars := by
  induction h with
  | nil =>
      rfl
  | cons hread _ ih =>
      rw [List.map_cons, List.map_cons, hread.source, ih]

theorem exists_readFrom_of_mem
    (h : List.Forall₂ (ReadFrom cells offset) groups selectors) :
    ∀ selector ∈ selectors, ∃ group ∈ groups,
      ReadFrom cells offset group selector := by
  induction h with
  | nil =>
      simp
  | cons hread _ ih =>
      refine List.forall_mem_cons.mpr ⟨⟨_, by simp, hread⟩, ?_⟩
      intro selector hselector
      obtain ⟨group, hgroup, hfrom⟩ := ih selector hselector
      exact ⟨group, List.mem_cons_of_mem _ hgroup, hfrom⟩

end Groups

section Dividing

/-- Selectors among which the two texts of a list at a span are divided. -/
structure Divides (masked uncommented : Text) (span : Span)
    (selectors : List Selector) : Prop where
  /-- The first selector begins where the list begins. -/
  first : selectors.head?.map (fun selector => selector.span.start) =
    some span.start
  /-- The last selector ends where the list ends. -/
  last : selectors.getLast?.map (fun selector => selector.span.stop) =
    some span.stop
  /-- Between neighbours there is one comma that can cut the list. -/
  next : selectors.IsChain (fun selector second =>
    second.span.start = selector.span.stop + 1 ∧
      OutsideAt masked ',' (selector.spanIn span.start).stop)
  /-- The source of a selector is the text where it stands. -/
  source : ∀ selector ∈ selectors,
    slice? uncommented (selector.spanIn span.start) = some selector.source
  /-- With commas between them, the sources are the list. -/
  joined : List.intercalate [','] (selectors.map Selector.source) = uncommented
  /-- No comma that can cut the list is left in a selector. -/
  uncut : ∀ n, OutsideAt masked ',' n → ∀ selector ∈ selectors,
    ¬ ((selector.spanIn span.start).start ≤ n ∧ n < (selector.spanIn span.start).stop)
  /-- A selector that is not blank says the same when it is read alone. -/
  alone : ∀ selector ∈ selectors, ∃ text,
    slice? masked (selector.spanIn span.start) = some text ∧
      (text.all isSpace = true ∨ ∀ offset', ∃ single,
        readList text selector.source offset' = [single] ∧
          single.content = selector.content)

/-- No part of a text shows a separator. -/
theorem hides_of_parted
    {p : Char → Bool} {text : Text} {parts : List Text} (h : Parted p text parts) :
    ∀ part ∈ parts, Hides p part := by
  induction h with
  | last hhides =>
      simpa using hhides
  | next hhides _ _ _ ih =>
      exact List.forall_mem_cons.mpr ⟨hhides, ih⟩

/-- A group that shows no comma is one selector. -/
theorem readList_of_hides
    {group : List Cell}
    (hhides : Hides (fun c => c = ',') (group.flatMap Cell.masked))
    (hblank : (group.flatMap Cell.masked).all isSpace = false)
    (offset : Nat) :
    ∃ single,
      readList (group.flatMap Cell.masked) (chars group) offset = [single] ∧
        single.content = contentOfGroup group := by
  refine ⟨ofPiece (chars group) offset ⟨0, group.flatMap Cell.masked⟩, ?_, rfl⟩
  rw [readList, hblank, piecesOf, Piece.split, splitExposed_of_hides hhides]
  rfl

variable {cells : List Cell}

theorem readList_eq_map
    (hblank : (cells.flatMap Cell.masked).all isSpace = false) (offset : Nat) :
    readList (cells.flatMap Cell.masked) (chars cells) offset =
      (piecesOf (cells.flatMap Cell.masked)).map
        (ofPiece (chars cells) offset) := by
  rw [readList, hblank]
  rfl

/-- The selectors of a list that is not blank divide it. -/
theorem divides_cells
    (hblank : (cells.flatMap Cell.masked).all isSpace = false) (offset : Nat) :
    Divides (cells.flatMap Cell.masked) (chars cells)
      ⟨offset, offset + width cells⟩
      (readList (cells.flatMap Cell.masked) (chars cells) offset) := by
  obtain ⟨groups, hgroups⟩ := exists_grouped cells
  have hpieces := readList_eq_map hblank offset
  have hread := forall₂_readList hgroups hblank offset
  have hmem := exists_readFrom_of_mem hread
  constructor
  case first =>
    rw [hpieces, piecesOf, Piece.split]
    cases hsplit : splitExposed (fun c => c = ',')
        (cells.flatMap Cell.masked) with
    | nil =>
        exact absurd hsplit (splitExposed_ne_nil _ _)
    | cons part parts =>
        rfl
  case last =>
    have hcomma : ','.utf8Size = 1 := rfl
    have hlast := getLast?_place hcomma
      (splitExposed_ne_nil (fun c => c = ',') (cells.flatMap Cell.masked)) 0
    rw [intercalate_splitExposed, byteLength_masked_eq_width,
      Nat.zero_add] at hlast
    rw [hpieces, List.getLast?_map, Option.map_map]
    have hstop := congrArg (Option.map (offset + ·)) hlast
    rw [Option.map_map] at hstop
    exact hstop
  case next =>
    have hchain := isChain_place
      (parted_splitExposed not_isTurn_of_comma (cells.flatMap Cell.masked))
      (.done 0 _)
    rw [hpieces, List.isChain_map]
    refine hchain.imp ?_
    rintro piece next ⟨hstart, houtside⟩
    rw [spanIn_ofPiece]
    refine ⟨?_, houtside⟩
    simp only [ofPiece, hstart, Nat.add_assoc]
  case source =>
    intro selector hselector
    obtain ⟨group, -, hfrom⟩ := hmem selector hselector
    rw [hfrom.uncommented, hfrom.source]
  case joined =>
    rw [map_source_of_forall₂ hread, intercalate_chars, hgroups.joined]
  case uncut =>
    intro n hn selector hselector
    rw [hpieces] at hselector
    obtain ⟨piece, hpiece, rfl⟩ := List.mem_map.mp hselector
    rw [spanIn_ofPiece]
    exact not_within_of_outsideAt hn piece hpiece
  case alone =>
    intro selector hselector
    obtain ⟨group, hgroup, hfrom⟩ := hmem selector hselector
    refine ⟨group.flatMap Cell.masked, hfrom.masked, ?_⟩
    cases hspace : (group.flatMap Cell.masked).all isSpace with
    | true =>
        exact .inl rfl
    | false =>
        have hhides :=
          hides_of_parted hgroups.parted _ (List.mem_map_of_mem hgroup)
        right
        intro offset'
        rw [hfrom.source, hfrom.content]
        exact readList_of_hides hhides hspace offset'

/--
The selectors of a list, wherever it starts: a list has none exactly when all
of its masked text is whitespace, and otherwise they divide it.
-/
theorem readList_divides (list : Text) (offset : Nat) :
    let masking := Masking.ofText list
    let selectors := readList masking.masked masking.uncommented offset
    (selectors = [] ↔ masking.masked.all isSpace = true) ∧
      (selectors = [] ∨
        Divides masking.masked masking.uncommented
          ⟨offset, offset + byteLength list⟩ selectors) := by
  have hlength : width (settledCells list) = byteLength list := by
    rw [width, chars_settledCells, Masking.byteLength_uncommented]
  simp only [← flatMap_masked_settledCells, ← chars_settledCells, ← hlength]
  cases hblank : ((settledCells list).flatMap Cell.masked).all isSpace with
  | true =>
      simp [readList, hblank]
  | false =>
      have hdivides := divides_cells hblank offset
      have hne : readList ((settledCells list).flatMap Cell.masked)
          (chars (settledCells list)) offset ≠ [] := by
        intro hnil
        have hfirst := hdivides.first
        rw [hnil] at hfirst
        cases hfirst
      refine ⟨?_, .inr hdivides⟩
      simp [hne]

end Dividing

end Selector

end StylesheetPruning
