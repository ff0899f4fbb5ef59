import Mathlib.Data.List.TakeWhile
import StylesheetPruning.Proofs.Pruning.Members
import StylesheetPruning.Proofs.Selector.Ranges

/-!
# No requirement of a selector is lost

The parts of a selector are read from ranges of the text that is left of the
selector without the whitespace at its ends. They are numbered in the order of
these ranges, and every byte between two ranges has a reason to be left out.

**Two texts.** The ranges are found in the masked text, and the parts are read
from the uncommented one. A range never begins or ends within a string, so what
stands there in the uncommented text are the characters of some cells.

**Results.**
* `exists_cells_of_severs`: where masked text is cut outside of strings, the
  cells are cut with it.
* `sectioned_cells`: how cells without whitespace around them fall into parts.
* `readList_sectioned`: how every selector of a list does.
-/

namespace StylesheetPruning

section Cells

variable {cell : Cell} {cells group : List Cell} {left right : Text}

/-- A cut of a masked text that is not within a string that was filled. -/
def Severs (left right : Text) : Prop :=
  left.getLast? = some 'X' → right.head? = some 'X' → False

theorem severs_of_head (h : ∀ c ∈ right.head?, c ≠ 'X') : Severs left right :=
  fun _ hright => h 'X' hright rfl

theorem severs_of_last (h : ∀ c ∈ left.getLast?, c ≠ 'X') : Severs left right :=
  fun hleft _ => h 'X' hleft rfl

theorem ne_filler_of_isSpace {c : Char} (h : isSpace c = true) : c ≠ 'X' := by
  rintro rfl
  cases h

theorem Severs.behind {front : Text} (h : Severs (front ++ left) right) :
    Severs left right := by
  intro hleft hright
  refine h ?_ hright
  rw [List.getLast?_append, hleft]
  rfl

/-- Outside of comments only a filled cell can be cut. -/
theorem Cell.eq_filler_of_masked
    (hcell : cell.role = .code ∨ cell.role = .quoted)
    (h : cell.masked = left ++ right) (hleft : left ≠ []) (hright : right ≠ []) :
    ∀ c ∈ left ++ right, c = 'X' := by
  rcases hcell with hrole | hrole
  · have hlength := congrArg List.length h
    have hpos := List.length_pos_of_ne_nil hleft
    have hpos' := List.length_pos_of_ne_nil hright
    simp only [masked, hrole, List.length_append, List.length_singleton]
      at hlength
    omega
  · intro c hc
    simp only [← h, masked, hrole] at hc
    exact List.eq_of_mem_replicate hc

/-- Where masked text is cut outside of strings, the cells are cut with it. -/
theorem exists_cells_of_severs
    (hcells : Uncommented cells) (h : cells.flatMap Cell.masked = left ++ right)
    (hsevers : Severs left right) :
    ∃ front back, cells = front ++ back ∧ front.flatMap Cell.masked = left ∧
      back.flatMap Cell.masked = right := by
  induction cells generalizing left with
  | nil =>
      obtain ⟨rfl, rfl⟩ := List.append_eq_nil_iff.mp h.symm
      exact ⟨[], [], rfl, rfl, rfl⟩
  | cons cell rest ih =>
      obtain ⟨hcell, hrest⟩ := List.forall_mem_cons.mp hcells
      rw [List.flatMap_cons] at h
      rcases List.append_eq_append_iff.mp h with
        ⟨left', rfl, hleft'⟩ | ⟨middle, hmasked, rfl⟩
      · obtain ⟨front, back, rfl, rfl, rfl⟩ := ih hrest hleft' hsevers.behind
        exact ⟨cell :: front, back, rfl, rfl, rfl⟩
      · rcases List.eq_nil_or_concat left with rfl | ⟨body, c, rfl⟩
        · refine ⟨[], cell :: rest, rfl, rfl, ?_⟩
          rw [List.flatMap_cons, hmasked, List.nil_append]
        · rw [List.concat_eq_append] at hmasked hsevers ⊢
          cases middle with
          | nil =>
              refine ⟨[cell], rest, rfl, ?_, rfl⟩
              rw [List.flatMap_singleton, hmasked, List.append_nil]
          | cons d middle =>
              have hfiller := Cell.eq_filler_of_masked hcell hmasked
                (by simp) (by simp)
              obtain rfl := hfiller c (by simp)
              obtain rfl := hfiller d (by simp)
              exact absurd rfl (hsevers (by simp))

/-- Outside of comments, masked whitespace is whitespace. -/
theorem chars_eq_of_blank
    (hcells : Uncommented cells)
    (h : ∀ c ∈ cells.flatMap Cell.masked, isSpace c = true) :
    chars cells = cells.flatMap Cell.masked := by
  induction cells with
  | nil =>
      rfl
  | cons cell rest ih =>
      obtain ⟨hcell, hrest⟩ := List.forall_mem_cons.mp hcells
      rw [List.flatMap_cons, List.forall_mem_append] at h
      have hmasked : cell.masked = [cell.char] := by
        rcases hcell with hrole | hrole
        · simp [Cell.masked, hrole]
        · have hpos := cell.char.utf8Size_pos
          have hfiller : 'X' ∈ cell.masked := by
            simp only [Cell.masked, hrole]
            exact List.mem_replicate.mpr ⟨by omega, rfl⟩
          exact absurd (h.1 'X' hfiller) (by decide)
      rw [chars_cons, List.flatMap_cons, hmasked, ih hrest h.2]
      rfl

/-- The cells of a group are cells of the list it belongs to. -/
theorem mem_intercalate_of_mem
    (mark : List Cell) {groups : List (List Cell)} (h : group ∈ groups)
    (hcell : cell ∈ group) : cell ∈ List.intercalate mark groups := by
  induction groups with
  | nil =>
      cases h
  | cons first groups ih =>
      cases groups with
      | nil =>
          rw [List.intercalate_singleton]
          rwa [← List.mem_singleton.mp h]
      | cons second groups =>
          rw [List.intercalate_cons_cons]
          rcases List.mem_cons.mp h with rfl | h
          · simp [hcell]
          · exact List.mem_append_right _ (ih h)

end Cells

namespace SimpleSelector

section Reading

variable {piece : Piece}

/-- What asks for nothing is not read. -/
theorem ofPiece?_of_not_asks
    (uncommented : Text) (h : asks piece = false) (position : Nat) :
    ofPiece? uncommented piece position = none := by
  rw [asks, Bool.not_eq_false'] at h
  simp only [ofPiece?, h, if_pos]

/-- What asks for something is read from its range. -/
theorem exists_ofPiece?
    (uncommented : Text) (h : asks piece = true) (position : Nat) :
    ∃ part, ofPiece? uncommented piece position = some part ∧
      part.position = position ∧
      part.source = slice uncommented piece.trim.span := by
  rw [asks, Bool.not_eq_true'] at h
  simp only [ofPiece?, h]
  exact ⟨_, rfl, rfl, rfl⟩

/-- The parts that are read are numbered. -/
theorem map_position_ofPieces
    (uncommented : Text) (position : Nat) (pieces : List Piece) :
    (ofPieces uncommented position pieces).map SimpleSelector.position =
      List.range' position (ofPieces uncommented position pieces).length := by
  induction pieces generalizing position with
  | nil =>
      rfl
  | cons piece pieces ih =>
      cases hasks : asks piece with
      | false =>
          rw [ofPieces, ofPiece?_of_not_asks uncommented hasks]
          exact ih position
      | true =>
          obtain ⟨part, hpart, hposition, -⟩ :=
            exists_ofPiece? uncommented hasks position
          rw [ofPieces, hpart]
          simp only [List.map_cons, List.length_cons, List.range'_succ]
          rw [hposition, ih]

/-- The parts are what stands in the ranges of the pieces that ask. -/
theorem forall₂_ofPieces
    {uncommented : Text} {pieces : List Piece}
    (h : ∀ piece ∈ pieces, asks piece = true →
      (slice? uncommented piece.trim.span).isSome = true) (position : Nat) :
    List.Forall₂
      (fun range part => slice? uncommented range = some part.source)
      ((pieces.filter asks).map (fun piece => piece.trim.span))
      (ofPieces uncommented position pieces) := by
  induction pieces generalizing position with
  | nil =>
      exact .nil
  | cons piece pieces ih =>
      obtain ⟨hpiece, hpieces⟩ := List.forall_mem_cons.mp h
      cases hasks : asks piece with
      | false =>
          rw [ofPieces, ofPiece?_of_not_asks uncommented hasks,
            List.filter_cons_of_neg (by simp [hasks])]
          exact ih hpieces position
      | true =>
          obtain ⟨part, hpart, -, hsource⟩ :=
            exists_ofPiece? uncommented hasks position
          obtain ⟨text, htext⟩ := Option.isSome_iff_exists.mp (hpiece hasks)
          rw [ofPieces, hpart, List.filter_cons_of_pos hasks, List.map_cons]
          refine .cons ?_ (ih hpieces (position + 1))
          rw [hsource, slice, htext]
          rfl

end Reading

section Cutting

variable {left text right : Text}

/-- No string reaches over the place where a part may begin. -/
theorem MayBegin.severs (h : MayBegin left right) : Severs left right := by
  rcases h with rfl | ⟨front, c, rfl, hc, -⟩ | ⟨c, hc, hmark⟩
  · exact severs_of_last (by simp)
  · refine severs_of_last ?_
    rintro d hd rfl
    rw [List.getLast?_concat, Option.mem_some_iff] at hd
    rw [hd] at hc
    cases hc
  · refine severs_of_head ?_
    rintro d hd rfl
    rw [Option.mem_unique hc hd] at hmark
    cases hmark

theorem severs_of_cuts
    (h : ∀ c ∈ right.head?, isCombinator c = true ∨ isMark c = true) :
    Severs text right := by
  refine severs_of_head ?_
  rintro c hc rfl
  rcases h 'X' hc with hcut | hcut <;> cases hcut

theorem PartAt.start_lt_stop {whole : Text} {range : Span}
    (h : PartAt whole range left text right) : range.start < range.stop := by
  have hpos : byteLength text ≠ 0 :=
    fun hzero => h.nonempty (byteLength_eq_zero_iff.mp hzero)
  rw [h.range]
  show byteLength left < byteLength left + byteLength text
  omega

theorem PartAt.slice?_eq {whole : Text} {range : Span}
    (h : PartAt whole range left text right) : slice? whole range = some text := by
  rw [h.range, h.whole]
  exact slice?_append _ _ _ rfl rfl

/-- A range of the masked text is a range of the characters. -/
theorem PartAt.isSome_slice?
    {cells : List Cell} {range : Span} (hcells : Uncommented cells)
    (h : PartAt (cells.flatMap Cell.masked) range left text right) :
    (slice? (chars cells) range).isSome = true := by
  obtain ⟨front, behind, rfl, hfront, hbehind⟩ :=
    exists_cells_of_severs hcells h.whole h.first.severs
  have hbehind' : Uncommented behind :=
    fun cell hcell => hcells cell (List.mem_append_right front hcell)
  obtain ⟨part, back, rfl, hpart, -⟩ :=
    exists_cells_of_severs hbehind' hbehind (severs_of_cuts h.last)
  have hfrontLength := byteLength_masked_eq_width front
  have hpartLength := byteLength_masked_eq_width part
  rw [hfront] at hfrontLength
  rw [hpart] at hpartLength
  have hslice : slice? (chars (front ++ (part ++ back))) range =
      some (chars part) := by
    rw [chars_append, chars_append, h.range, hfrontLength, hpartLength]
    exact slice?_append _ _ _ rfl rfl
  rw [hslice]
  rfl

end Cutting

end SimpleSelector

namespace Selector

open SimpleSelector

section Sectioning

/--
How a selector without whitespace at its ends falls into parts, by its masked
text, its source and the ranges of its parts.
-/
structure Sectioned (text source : Text) (parts : List SimpleSelector)
    (ranges : List Span) : Prop where
  /-- The parts are numbered from zero on. -/
  numbered : parts.map SimpleSelector.position = List.range parts.length
  /-- The source of each part is what stands in its range. -/
  sources : List.Forall₂
    (fun range part => slice? source range = some part.source) ranges parts
  /-- No range is empty. -/
  nonempty : ∀ range ∈ ranges, range.start < range.stop
  /-- Every range ends before the next ones begin. -/
  ordered : ranges.Pairwise (fun range next => range.stop ≤ next.start)
  /-- What is in no range has a reason to be left out. -/
  covered : ∀ n < byteLength text, Accounted text ranges n
  /-- In no range there is a place where a selector is cut. -/
  uncut : ∀ range ∈ ranges, ∃ part, slice? text range = some part ∧ Uncut part

/-- Cells without whitespace at their end fall into parts. -/
theorem sectioned_cells
    {cells : List Cell} (hcells : Uncommented cells) {text : Text}
    (htext : cells.flatMap Cell.masked = text)
    (hbare : ∀ c ∈ text.getLast?, isSpace c = false) :
    Sectioned text (chars cells)
      (ofPieces (chars cells) 0 (SimpleSelector.piecesOf ⟨0, text⟩))
      (rangesOf text) := by
  subst htext
  have hpartAt : ∀ range ∈ rangesOf (cells.flatMap Cell.masked),
      ∃ left part right,
        PartAt (cells.flatMap Cell.masked) range left part right :=
    fun _ hrange => exists_partAt_of_mem_rangesOf hbare hrange
  constructor
  case numbered =>
    rw [map_position_ofPieces, List.range_eq_range']
  case sources =>
    refine forall₂_ofPieces ?_ 0
    intro piece hpiece hasks
    obtain ⟨left, part, right, hpart⟩ := hpartAt piece.trim.span
      (List.mem_map.mpr ⟨piece, List.mem_filter.mpr ⟨hpiece, hasks⟩, rfl⟩)
    exact hpart.isSome_slice? hcells
  case nonempty =>
    intro range hrange
    obtain ⟨left, part, right, hpart⟩ := hpartAt range hrange
    exact hpart.start_lt_stop
  case ordered =>
    exact pairwise_rangesOf _
  case covered =>
    intro n hn
    exact accounted_rangesOf hbare hn
  case uncut =>
    intro range hrange
    obtain ⟨left, part, right, hpart⟩ := hpartAt range hrange
    exact ⟨part, hpart.slice?_eq, hpart.uncut⟩

end Sectioning

section Trimming

/-- A text with no whitespace at its ends. -/
structure Bare (text : Text) : Prop where
  first : ∀ c ∈ text.head?, isSpace c = false
  last : ∀ c ∈ text.getLast?, isSpace c = false

theorem last_trimEnd (text : Text) :
    ∀ c ∈ (trimEnd text).getLast?, isSpace c = false := by
  intro c hc
  have hhead := List.head?_dropWhile_not isSpace text.reverse
  rw [trimEnd, List.getLast?_reverse] at hc
  rw [Option.mem_def.mp hc] at hhead
  exact hhead

/-- Every text has whitespace around a bare text. -/
theorem exists_bare (text : Text) :
    ∃ front inner back, text = front ++ (inner ++ back) ∧
      (∀ c ∈ front, isSpace c = true) ∧ (∀ c ∈ back, isSpace c = true) ∧
      Bare inner := by
  obtain ⟨back, hback, hblank⟩ :=
    exists_eq_trimEnd_append (text.dropWhile isSpace)
  refine ⟨text.takeWhile isSpace, trimEnd (text.dropWhile isSpace), back, ?_,
    fun c hc => List.mem_takeWhile_imp hc, hblank, ?_, last_trimEnd _⟩
  · rw [← hback, List.takeWhile_append_dropWhile]
  · have hhead := List.head?_dropWhile_not isSpace text
    intro c hc
    cases hrest : text.dropWhile isSpace with
    | nil =>
        rw [hrest] at hc
        cases hc
    | cons d rest =>
        rw [hrest] at hc hhead
        rw [trimEnd_cons_of_not_isSpace hhead] at hc
        rwa [← Option.some.inj hc]

theorem Bare.trim_eq {text : Text} (h : Bare text) (start : Nat) :
    (Piece.mk start text).trim = ⟨start, text⟩ := by
  rw [Piece.trim_of_head h.first]
  obtain ⟨back, htext, hblank⟩ := exists_eq_trimEnd_append text
  rcases List.eq_nil_or_concat back with rfl | ⟨body, c, rfl⟩
  · rw [List.append_nil] at htext
    rw [← htext]
  · have hspace := hblank c (by simp)
    have hbare := h.last c (by rw [htext]; simp)
    rw [hspace] at hbare
    cases hbare

/--
What is left of a member of a list without the whitespace at its two ends, by
the two texts of the list and the span of the member.
-/
structure TrimmedAt (masked uncommented : Text) (span : Span)
    (left text right source : Text) : Prop where
  whole : slice? masked span = some (left ++ (text ++ right))
  front : ∀ c ∈ left, isSpace c = true
  back : ∀ c ∈ right, isSpace c = true
  bare : Bare text
  source : slice? uncommented
    ⟨span.start + byteLength left,
      span.start + byteLength left + byteLength text⟩ = some source

variable {cells group front inner back : List Cell} {selector : Selector}
  {offset : Nat}

/-- What a group says is said by its cells without the whitespace around them. -/
theorem contentOfGroup_of_blank
    (hfront : Uncommented front)
    (hblank : ∀ c ∈ front.flatMap Cell.masked, isSpace c = true)
    (hback : Uncommented back)
    (hblank' : ∀ c ∈ back.flatMap Cell.masked, isSpace c = true)
    (hbare : Bare (inner.flatMap Cell.masked)) :
    contentOfGroup (front ++ (inner ++ back)) =
      (chars inner, SimpleSelector.ofPieces (chars inner) 0
        (SimpleSelector.piecesOf ⟨0, inner.flatMap Cell.masked⟩)) := by
  have hlength := byteLength_masked_eq_width inner
  have hcontent := content_ofPiece hlength hblank hblank' [] [] 0
  have hslice : slice (chars inner)
      (Piece.mk 0 (inner.flatMap Cell.masked)).span = chars inner := by
    have hall := slice_append [] (chars inner) []
      (show (Piece.mk 0 (inner.flatMap Cell.masked)).span.start = 0 from rfl)
      (by simp [Piece.span, hlength, width])
    simpa using hall
  rw [hbare.trim_eq, contentOf, hslice] at hcontent
  rw [← hcontent, contentOfGroup, chars_append, chars_append,
    chars_eq_of_blank hfront hblank, chars_eq_of_blank hback hblank']
  simp [content, contentOf, ofPiece]

/-- A selector that was read from a group of cells falls into parts. -/
theorem ReadFrom.exists_sectioned
    (h : ReadFrom cells offset group selector) (hgroup : Uncommented group) :
    ∃ left text right,
      TrimmedAt (cells.flatMap Cell.masked) (chars cells)
        (selector.spanIn offset) left text right selector.trimmed ∧
      Sectioned text selector.trimmed selector.parts (rangesOf text) := by
  obtain ⟨left, text, right, hwhole, hleft, hright, hbare⟩ :=
    exists_bare (group.flatMap Cell.masked)
  have hcut : Severs left (text ++ right) :=
    severs_of_last (fun c hc =>
      ne_filler_of_isSpace (hleft c (List.mem_of_getLast? hc)))
  have hcut' : Severs text right :=
    severs_of_head (fun c hc =>
      ne_filler_of_isSpace (hright c (List.mem_of_head? hc)))
  obtain ⟨front, behind, rfl, rfl, hbehind⟩ :=
    exists_cells_of_severs hgroup hwhole hcut
  obtain ⟨hfront, hbehind'⟩ := List.forall_mem_append.mp hgroup
  obtain ⟨inner, back, rfl, rfl, rfl⟩ :=
    exists_cells_of_severs hbehind' hbehind hcut'
  obtain ⟨hinner, hback⟩ := List.forall_mem_append.mp hbehind'
  have hcontent := h.content
  rw [contentOfGroup_of_blank hfront hleft hback hright hbare] at hcontent
  obtain ⟨htrimmed, hparts⟩ := Prod.mk.inj hcontent
  obtain ⟨before, after, hchars, hbefore, -⟩ :=
    slice?_eq_some_iff.mp h.uncommented
  refine ⟨_, _, _, ⟨?_, hleft, hright, hbare, ?_⟩, ?_⟩
  · rw [h.masked, List.flatMap_append, List.flatMap_append]
  · have hassoc : chars cells =
        (before ++ chars front) ++ (chars inner ++ (chars back ++ after)) := by
      rw [hchars, chars_append, chars_append]
      simp
    rw [hassoc, htrimmed, byteLength_masked_eq_width,
      byteLength_masked_eq_width, ← hbefore]
    refine slice?_append _ _ _ ?_ ?_ <;> rw [byteLength_append] <;> rfl
  · rw [htrimmed, hparts]
    exact sectioned_cells hinner rfl hbare.last

/--
The selectors of a list, wherever it starts: what is left of each of them
without the whitespace at its ends falls into the ranges of its parts.
-/
theorem readList_sectioned (list : Text) (offset : Nat) :
    let masking := Masking.ofText list
    ∀ selector ∈ readList masking.masked masking.uncommented offset,
      ∃ left text right ranges,
        TrimmedAt masking.masked masking.uncommented (selector.spanIn offset)
          left text right selector.trimmed ∧
        Sectioned text selector.trimmed selector.parts ranges := by
  simp only [← flatMap_masked_settledCells, ← chars_settledCells]
  intro selector hselector
  cases hblank : ((settledCells list).flatMap Cell.masked).all isSpace with
  | true =>
      simp [readList, hblank] at hselector
  | false =>
      obtain ⟨groups, hgroups⟩ := exists_grouped (settledCells list)
      obtain ⟨group, hgroup, hfrom⟩ :=
        exists_readFrom_of_mem (forall₂_readList hgroups hblank offset) selector
          hselector
      have hcells : Uncommented group := by
        intro cell hcell
        have hmem := mem_intercalate_of_mem [codeCell ','] hgroup hcell
        rw [hgroups.joined] at hmem
        exact uncommented_settledCells list cell hmem
      obtain ⟨left, text, right, htrimmed, hsectioned⟩ :=
        hfrom.exists_sectioned hcells
      exact ⟨left, text, right, _, htrimmed, hsectioned⟩

/--
An escape that takes whitespace with it, a string in brackets, and a suffix
that belongs to no name.
-/
theorem readList_sectioned_escape :
    let list := "i\\9 .w[t='→ .x']>:not(u) ".toList
    let masking := Masking.ofText list
    let selector := ofPiece masking.uncommented 7 ⟨0, masking.masked⟩
    selector ∈ readList masking.masked masking.uncommented 7 ∧
      selector.parts.map SimpleSelector.source =
        ["i\\9".toList, ".w".toList, "[t='→ .x']".toList] ∧
      ∃ left text right ranges,
        TrimmedAt masking.masked masking.uncommented (selector.spanIn 7)
          left text right selector.trimmed ∧
        Sectioned text selector.trimmed selector.parts ranges := by
  intro list masking selector
  have hselector : selector ∈ readList masking.masked masking.uncommented 7 := by
    decide
  exact ⟨hselector, by decide, readList_sectioned list 7 selector hselector⟩

end Trimming

end Selector

end StylesheetPruning
