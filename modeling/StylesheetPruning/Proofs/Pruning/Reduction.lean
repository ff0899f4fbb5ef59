import Mathlib.Algebra.GroupWithZero.Nat
import StylesheetPruning.Edit.Removal
import StylesheetPruning.Proofs.Edit.Respacing
import StylesheetPruning.Proofs.Selector.Pieces
import StylesheetPruning.Proofs.Stylesheet.Block
import StylesheetPruning.Proofs.Stylesheet.Outline

/-!
# Selector lists of which members are left out

A selector list is cut at commas that carry structure. A member that stood
between two of them, or at an end of the list, may stand in front of any other
stop, so a list of which some members are left out is read calmly as well.

**Fit texts.** A text is fit when it has cells that are whole and hold no
fence, as the cells of a selector list do.

**Results.**
* `exists_groups`: members are cells between commas.
* `keptEdit?_judge`: the edit of a list replaces all of it.
* `fitText_keptText`: what is kept of a list is fit.
* `ungapped_keptText`: it is the live members with commas between them.
-/

namespace StylesheetPruning

section Groups

/-- Where the masked text has a mark, the cells have it too. -/
theorem exists_cells_of_masked_append
    {mark : Char} (hspace : mark ≠ ' ') (hfiller : mark ≠ 'X')
    {cells : List Cell} {left right : Text}
    (h : cells.flatMap Cell.masked = left ++ mark :: right) :
    ∃ front back, cells = front ++ codeCell mark :: back ∧
      front.flatMap Cell.masked = left ∧ back.flatMap Cell.masked = right := by
  induction cells generalizing left with
  | nil =>
      simp at h
  | cons cell rest ih =>
      rw [List.flatMap_cons] at h
      rcases List.append_eq_append_iff.mp h with
        ⟨left', rfl, hrest⟩ | ⟨middle, hcell, hright⟩
      · obtain ⟨front, back, rfl, rfl, rfl⟩ := ih hrest
        exact ⟨cell :: front, back, rfl, rfl, rfl⟩
      · cases middle with
        | nil =>
            rw [List.append_nil] at hcell
            rw [List.nil_append] at hright
            have hrest : rest.flatMap Cell.masked = [] ++ mark :: right :=
              hright.symm
            obtain ⟨front, back, rfl, hfront, rfl⟩ := ih hrest
            refine ⟨cell :: front, back, rfl, ?_, rfl⟩
            rw [List.flatMap_cons, hfront, hcell, List.append_nil]
        | cons c middle =>
            rw [List.cons_append, List.cons.injEq] at hright
            obtain ⟨rfl, hright⟩ := hright
            have hmem : mark ∈ cell.masked := by
              rw [hcell]
              simp
            have heq := cell.eq_codeCell_of_mem_masked hmem hspace hfiller
            subst heq
            have hsingle : [mark] = left ++ mark :: middle := hcell
            have hlength := congrArg List.length hsingle
            simp only [List.length_append, List.length_cons, List.length_nil]
              at hlength
            have hleft : left = [] := List.length_eq_zero_iff.mp (by omega)
            have hmiddle : middle = [] := List.length_eq_zero_iff.mp (by omega)
            subst hleft hmiddle
            exact ⟨[], rest, rfl, rfl, hright.symm⟩

/-- Cells whose masked text is cut at commas are cut with it. -/
theorem exists_groups
    {parts : List Text} (hparts : parts ≠ []) {cells : List Cell}
    (h : cells.flatMap Cell.masked = List.intercalate [','] parts) :
    ∃ groups : List (List Cell),
      groups.map (fun group => group.flatMap Cell.masked) = parts ∧
      List.intercalate [codeCell ','] groups = cells := by
  induction parts generalizing cells with
  | nil =>
      exact absurd rfl hparts
  | cons part parts ih =>
      cases parts with
      | nil =>
          exact ⟨[cells], by simpa using h, by simp⟩
      | cons second parts =>
          rw [List.intercalate_cons_cons, List.append_assoc,
            List.singleton_append] at h
          obtain ⟨front, back, rfl, hfront, hback⟩ :=
            exists_cells_of_masked_append (by decide) (by decide) h
          obtain ⟨groups, hgroups, rfl⟩ := ih (by simp) hback
          refine ⟨front :: groups, by rw [List.map_cons, hfront, hgroups], ?_⟩
          cases groups with
          | nil =>
              cases hgroups
          | cons group groups =>
              simp

theorem intercalate_chars (groups : List (List Cell)) :
    List.intercalate [','] (groups.map chars) =
      chars (List.intercalate [codeCell ','] groups) := by
  induction groups with
  | nil =>
      rfl
  | cons group groups ih =>
      cases groups with
      | nil =>
          simp
      | cons second groups =>
          simp only [List.map_cons, List.intercalate_cons_cons, chars_append]
            at ih ⊢
          rw [ih]
          rfl

/-- The pieces of a list are cells between its commas. -/
theorem exists_groups_piecesOf (cells : List Cell) :
    ∃ groups : List (List Cell),
      groups ≠ [] ∧ List.intercalate [codeCell ','] groups = cells ∧
      (Selector.piecesOf (cells.flatMap Cell.masked)).map Piece.text =
        groups.map (fun group => group.flatMap Cell.masked) ∧
      (Selector.piecesOf (cells.flatMap Cell.masked)).map
          (fun piece => slice (chars cells) piece.span) =
        groups.map chars := by
  have hjoin := intercalate_splitExposed ',' (cells.flatMap Cell.masked)
  obtain ⟨groups, hgroups, hcells⟩ :=
    exists_groups (splitExposed_ne_nil _ _) hjoin.symm
  have hne : groups ≠ [] := by
    rintro rfl
    exact splitExposed_ne_nil _ _ hgroups.symm
  have hwidths : (splitExposed (fun c => c = ',')
        (cells.flatMap Cell.masked)).map byteLength =
      (groups.map chars).map byteLength := by
    rw [← hgroups, List.map_map, List.map_map]
    refine List.map_congr_left ?_
    intro group _
    exact byteLength_masked_eq_width group
  have hchars : List.intercalate [','] (groups.map chars) = chars cells := by
    rw [intercalate_chars, hcells]
  have hcomma : ','.utf8Size = 1 := rfl
  have hslices := map_slice_place hcomma hwidths [] []
  rw [List.nil_append, List.append_nil, hchars] at hslices
  exact ⟨groups, hne, hcells,
    (Piece.map_text_place 1 0 _).trans hgroups.symm, hslices⟩

/-- The members of a list that is not blank are cells between its commas. -/
theorem exists_groups_readList
    {cells : List Cell} (hblank : (cells.flatMap Cell.masked).all isSpace = false)
    (offset : Nat) :
    ∃ groups : List (List Cell),
      groups ≠ [] ∧ List.intercalate [codeCell ','] groups = cells ∧
      (Selector.readList (cells.flatMap Cell.masked) (chars cells) offset).map
          Selector.source = groups.map chars := by
  obtain ⟨groups, hne, hcells, -, hslices⟩ := exists_groups_piecesOf cells
  refine ⟨groups, hne, hcells, ?_⟩
  rw [Selector.readList, hblank, if_neg (by simp), List.map_map]
  exact hslices

end Groups

section Edits

/-- The edit of a list that is not blank replaces all of it. -/
theorem keptEdit?_judge
    {cells : List Cell} (hblank : (cells.flatMap Cell.masked).all isSpace = false)
    (inventory : Inventory) (offset : Nat) :
    Judgement.keptEdit? (Judgement.judge inventory
        (Selector.readList (cells.flatMap Cell.masked) (chars cells) offset)) =
      some ⟨⟨offset, offset + width cells⟩,
        Judgement.keptText (Judgement.judge inventory
          (Selector.readList (cells.flatMap Cell.masked) (chars cells)
            offset))⟩ := by
  have hparts := splitExposed_ne_nil (fun c => c = ',')
    (cells.flatMap Cell.masked)
  have hcomma : ','.utf8Size = 1 := rfl
  have hstop := getLast?_place hcomma hparts 0
  rw [intercalate_splitExposed, byteLength_masked_eq_width] at hstop
  rw [Selector.readList, hblank, if_neg (by simp), Selector.piecesOf,
    Piece.split]
  simp only [Judgement.keptEdit?, Judgement.judge, List.head?_map,
    List.getLast?_map]
  cases hsplit : splitExposed (fun c => c = ',')
      (cells.flatMap Cell.masked) with
  | nil =>
      exact absurd hsplit hparts
  | cons part parts =>
      rw [hsplit] at hstop
      obtain ⟨last, hlast, hspan⟩ := Option.map_eq_some_iff.mp hstop
      rw [hlast, Piece.place]
      simp only [Option.map_some, List.head?_cons, Option.bind_eq_bind,
        Option.bind_some, Option.pure_def, Option.some.injEq,
        Edit.mk.injEq, Span.mk.injEq, and_true]
      constructor
      · rfl
      · show offset + last.span.stop = offset + width cells
        rw [hspan, Nat.zero_add]

end Edits

section Fitness

/-- Cells that can be part of a selector list. -/
def Fit (cells : List Cell) : Prop :=
  Whole cells ∧ Fenceless cells

/-- A text that can be part of a selector list. -/
def FitText (text : Text) : Prop :=
  ∃ cells, chars cells = text ∧ Fit cells

theorem fit_append_cons {cells cells' : List Cell} :
    Fit (cells ++ codeCell ',' :: cells') ↔ Fit cells ∧ Fit cells' := by
  have hcomma : (codeCell ',').isFence = false := rfl
  simp only [Fit, whole_append_cons (c := ',') rfl, Fenceless,
    List.forall_mem_append, List.forall_mem_cons, hcomma, true_and]
  exact and_and_and_comm

theorem fit_of_mem_groups
    {groups : List (List Cell)}
    (h : Fit (List.intercalate [codeCell ','] groups)) :
    ∀ group ∈ groups, Fit group := by
  induction groups with
  | nil =>
      simp
  | cons group groups ih =>
      cases groups with
      | nil =>
          simpa using h
      | cons second groups =>
          rw [List.intercalate_cons_cons, List.append_assoc,
            List.singleton_append, fit_append_cons] at h
          rw [List.forall_mem_cons]
          exact ⟨h.1, ih h.2⟩

theorem fitText_nil : FitText [] :=
  ⟨[], rfl, whole_nil, by simp [Fenceless]⟩

theorem FitText.append_comma {text text' : Text}
    (h : FitText text) (h' : FitText text') :
    FitText (text ++ ',' :: text') := by
  obtain ⟨cells, rfl, hcells⟩ := h
  obtain ⟨cells', rfl, hcells'⟩ := h'
  exact ⟨cells ++ codeCell ',' :: cells', by simp [codeCell],
    fit_append_cons.mpr ⟨hcells, hcells'⟩⟩

theorem fenceless_spaces (n : Nat) :
    Fenceless ((spaces n).map codeCell) := by
  intro cell hcell
  obtain ⟨c, hc, rfl⟩ := List.mem_map.mp hcell
  rw [List.eq_of_mem_replicate hc]
  rfl

theorem FitText.append_spaces {text : Text} (h : FitText text) (n : Nat) :
    FitText (text ++ spaces n) := by
  obtain ⟨cells, rfl, hwhole, hfenceless⟩ := h
  refine ⟨cells ++ (spaces n).map codeCell, ?_, whole_append_spaces hwhole n,
    ?_⟩
  · rw [chars_append, chars_map_codeCell]
  · exact List.forall_mem_append.mpr ⟨hfenceless, fenceless_spaces n⟩

theorem FitText.spaces_append {text : Text} (h : FitText text) (n : Nat) :
    FitText (spaces n ++ text) := by
  obtain ⟨cells, rfl, hwhole, hfenceless⟩ := h
  refine ⟨(spaces n).map codeCell ++ cells, ?_, whole_spaces_append hwhole n,
    ?_⟩
  · rw [chars_append, chars_map_codeCell]
  · exact List.forall_mem_append.mpr ⟨fenceless_spaces n, hfenceless⟩

end Fitness

namespace Judgement

section Kept

variable {judgements : List Judgement}

theorem fitText_keptBehind
    (h : ∀ judgement ∈ judgements, FitText judgement.selector.source)
    (padding : Nat) {front : Text} (hfront : FitText front) :
    FitText (front ++ keptBehind padding judgements) := by
  induction judgements generalizing padding front with
  | nil =>
      exact hfront.append_spaces padding
  | cons judgement rest ih =>
      obtain ⟨hsource, hrest⟩ := List.forall_mem_cons.mp h
      rw [keptBehind]
      split
      · have hmember :=
          hfront.append_comma (hsource.spaces_append padding)
        have hall := ih hrest 0 hmember
        simpa using hall
      · exact ih hrest _ hfront

theorem fitText_keptFrom
    (h : ∀ judgement ∈ judgements, FitText judgement.selector.source)
    (padding : Nat) : FitText (keptFrom padding judgements) := by
  induction judgements generalizing padding with
  | nil =>
      exact fitText_nil.append_spaces padding
  | cons judgement rest ih =>
      obtain ⟨hsource, hrest⟩ := List.forall_mem_cons.mp h
      rw [keptFrom]
      split
      · exact fitText_keptBehind hrest 0 (hsource.spaces_append padding)
      · exact ih hrest _

/-- What is kept of a list is fit. -/
theorem fitText_keptText
    (h : ∀ judgement ∈ judgements, FitText judgement.selector.source) :
    FitText (keptText judgements) :=
  fitText_keptFrom h 0

/-- The sources of the live members of a list. -/
def liveSources (judgements : List Judgement) : List Text :=
  (judgements.filter Judgement.live).map
    (fun judgement => judgement.selector.source)

theorem liveSources_cons (judgement : Judgement) (rest : List Judgement) :
    liveSources (judgement :: rest) =
      if judgement.live then
        judgement.selector.source :: liveSources rest
      else liveSources rest := by
  by_cases h : judgement.live = true <;> simp [liveSources, h]

theorem ungapped_keptBehind (padding : Nat) (judgements : List Judgement) :
    ungapped (keptBehind padding judgements) =
      (liveSources judgements).flatMap (fun source => ',' :: ungapped source) := by
  induction judgements generalizing padding with
  | nil =>
      exact ungapped_spaces padding
  | cons judgement rest ih =>
      rw [keptBehind, liveSources_cons]
      split
      · have hcomma : ∀ text, ungapped (',' :: text) = ',' :: ungapped text :=
          fun _ => rfl
        simp [hcomma, ih]
      · exact ih _

theorem ungapped_intercalate_cons (first : Text) (others : List Text) :
    ungapped (List.intercalate [','] (first :: others)) =
      ungapped first ++ others.flatMap (fun source => ',' :: ungapped source) := by
  induction others generalizing first with
  | nil =>
      simp
  | cons second others ih =>
      have hcomma : ungapped [','] = [','] := rfl
      rw [List.intercalate_cons_cons, ungapped_append, ungapped_append, ih,
        hcomma, List.flatMap_cons]
      simp

theorem ungapped_keptFrom (padding : Nat) (judgements : List Judgement) :
    ungapped (keptFrom padding judgements) =
      ungapped (List.intercalate [','] (liveSources judgements)) := by
  induction judgements generalizing padding with
  | nil =>
      exact ungapped_spaces padding
  | cons judgement rest ih =>
      rw [keptFrom, liveSources_cons]
      split
      · rw [ungapped_intercalate_cons]
        simp [ungapped_keptBehind]
      · exact ih _

/-- What is kept of a list are its live members, with commas between them. -/
theorem ungapped_keptText (judgements : List Judgement) :
    ungapped (keptText judgements) =
      ungapped (List.intercalate [','] (liveSources judgements)) :=
  ungapped_keptFrom 0 judgements

theorem weight_intercalate {sources : List Text} (h : sources ≠ []) :
    weight (List.intercalate [','] sources) + 1 =
      (sources.map (fun source => weight source + 1)).sum := by
  induction sources with
  | nil =>
      exact absurd rfl h
  | cons first others ih =>
      cases others with
      | nil =>
          simp
      | cons second others =>
          have hcomma : weight [','] = 1 := rfl
          have hothers := ih (by simp)
          rw [List.intercalate_cons_cons, weight_append, weight_append,
            List.map_cons, List.sum_cons, ← hothers, hcomma]
          omega

/-- Without its dead members, a list has less to join. -/
theorem sum_liveSources_le (judgements : List Judgement) :
    ((liveSources judgements).map (fun source => weight source + 1)).sum +
        (judgements.filter (fun judgement => !judgement.live)).length ≤
      ((judgements.map (fun judgement => judgement.selector.source)).map
        (fun source => weight source + 1)).sum := by
  induction judgements with
  | nil =>
      exact Nat.le_refl 0
  | cons judgement rest ih =>
      rw [liveSources_cons]
      cases hlive : judgement.live with
      | true =>
          simp [hlive] at ih ⊢
          omega
      | false =>
          simp [hlive] at ih ⊢
          omega

/-- What is kept of a list with dead members is lighter than the list. -/
theorem weight_keptText_lt
    {judgements : List Judgement} {list : Text}
    (hlist : List.intercalate [',']
      (judgements.map (fun judgement => judgement.selector.source)) = list)
    (hweight : 0 < weight list)
    (hdead : ∃ judgement ∈ judgements, judgement.live = false) :
    weight (keptText judgements) < weight list := by
  obtain ⟨judgement, hjudgement, hlive⟩ := hdead
  have hcount :
      0 < (judgements.filter (fun judgement => !judgement.live)).length := by
    refine List.length_pos_of_mem (a := judgement) ?_
    simp [hjudgement, hlive]
  have hne : judgements.map (fun judgement => judgement.selector.source) ≠
      [] := by
    simpa using List.ne_nil_of_mem hjudgement
  have hall := weight_intercalate hne
  have hsum := sum_liveSources_le judgements
  rw [weight, ungapped_keptText, ← weight]
  by_cases hnone : liveSources judgements = []
  · rw [hnone]
    exact hweight
  · have hkept := weight_intercalate hnone
    rw [hlist] at hall
    omega

end Kept

end Judgement

/-- Joined with commas, the members of a list are the list. -/
theorem intercalate_sources
    {cells : List Cell} (hblank : (cells.flatMap Cell.masked).all isSpace = false)
    (inventory : Inventory) (offset : Nat) :
    List.intercalate [',']
        ((Judgement.judge inventory
          (Selector.readList (cells.flatMap Cell.masked) (chars cells)
            offset)).map (fun judgement => judgement.selector.source)) =
      chars cells := by
  obtain ⟨groups, -, rfl, hsources⟩ := exists_groups_readList hblank offset
  rw [Judgement.judge, List.map_map]
  exact (congrArg _ hsources).trans (intercalate_chars groups)

/-- The members of a fit list are fit. -/
theorem fitText_of_mem_judge
    {cells : List Cell} (hfit : Fit cells) (inventory : Inventory)
    (offset : Nat) :
    ∀ judgement ∈ Judgement.judge inventory
        (Selector.readList (cells.flatMap Cell.masked) (chars cells) offset),
      FitText judgement.selector.source := by
  intro judgement hjudgement
  obtain ⟨selector, hselector, rfl⟩ := List.mem_map.mp hjudgement
  cases hblank : (cells.flatMap Cell.masked).all isSpace with
  | true =>
      simp [Selector.readList, hblank] at hselector
  | false =>
      obtain ⟨groups, -, rfl, hsources⟩ := exists_groups_readList hblank offset
      have hmem := List.mem_map_of_mem (f := Selector.source) hselector
      rw [hsources] at hmem
      obtain ⟨group, hgroup, hchars⟩ := List.mem_map.mp hmem
      exact ⟨group, hchars, fit_of_mem_groups hfit group hgroup⟩

end StylesheetPruning
