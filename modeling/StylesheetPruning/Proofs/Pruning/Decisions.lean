import StylesheetPruning.Proofs.Stylesheet.Calm
import StylesheetPruning.Proofs.Stylesheet.Rewriting
import StylesheetPruning.Proofs.Text.Slicing
import StylesheetPruning.Pruning.Checked

/-!
# Decisions about leaf passages

**Results.**
* `slice_selectorList`, `slice_declarations`, `slice_inner`: the parts of a
  leaf stand where its rule says, in the masked and in the uncommented text.
* `decisions_eq_map`: decisions are made about the leaf passages.
* `plan_eq_filterMap`: so the edits act on the leaf passages.
-/

namespace StylesheetPruning

section Slices

namespace Outline

/-- A leaf stands in the stylesheet where its offset says. -/
theorem exists_around_leaf
    {cells : List Cell} {leaf : Leaf} (h : leaf ∈ (ofCells cells).leaves) :
    ∃ before after,
      cells = before ++ (leaf.cells ++ after) ∧ width before = leaf.start := by
  have hpassages : ∀ (passages : List Passage) (front : List Cell),
      leaf ∈ leavesFrom (width front) passages →
      ∃ before after,
        front ++ passages.flatMap Passage.cells =
          before ++ (leaf.cells ++ after) ∧
        width before = leaf.start := by
    intro passages
    induction passages with
    | nil =>
        intro front hleaf
        cases hleaf
    | cons passage others ih =>
        intro front hleaf
        rw [List.flatMap_cons]
        cases passage with
        | run body fence =>
            have hwidth : width front + width body + fence.utf8Size =
                width (front ++ (Passage.run body fence).cells) := by
              simp [Passage.cells, codeCell]
              omega
            rw [leavesFrom, hwidth] at hleaf
            obtain ⟨before, after, heq, hstart⟩ := ih _ hleaf
            exact ⟨before, after, by rw [← heq, List.append_assoc], hstart⟩
        | leaf list inner =>
            rcases List.mem_cons.mp hleaf with rfl | hleaf
            · exact ⟨front, others.flatMap Passage.cells, rfl, rfl⟩
            · have hleafWidth := Leaf.width_cells ⟨width front, list, inner⟩
              have hwidth : width front + width list + width inner + 2 =
                  width (front ++ (Passage.leaf list inner).cells) := by
                rw [width_append]
                simp only [Leaf.cells] at hleafWidth
                simp only [Passage.cells, hleafWidth]
                omega
              rw [hwidth] at hleaf
              obtain ⟨before, after, heq, hstart⟩ := ih _ hleaf
              exact ⟨before, after, by rw [← heq, List.append_assoc], hstart⟩
  obtain ⟨before, after, heq, hstart⟩ :=
    hpassages (ofCells cells).passages [] h
  refine ⟨before, after ++ (ofCells cells).rest, ?_, hstart⟩
  have hcells := passages_append_rest cells
  rw [List.nil_append] at heq
  rw [heq] at hcells
  rw [← List.append_assoc leaf.cells, ← List.append_assoc]
  exact hcells.symm

end Outline

namespace Leaf

variable {cells : List Cell} {leaf : Leaf} {image : Cell → Text}

theorem byteLength_flatMap
    (himage : ∀ cell, byteLength (image cell) = cell.char.utf8Size)
    (cells : List Cell) : byteLength (cells.flatMap image) = width cells := by
  induction cells with
  | nil =>
      rfl
  | cons cell rest ih =>
      rw [List.flatMap_cons, byteLength_append, himage, ih, width_cons]

/-- Any text of the same lengths has the selector list where the leaf says. -/
theorem slice_selectorList
    (himage : ∀ cell, byteLength (image cell) = cell.char.utf8Size)
    (h : leaf ∈ (Outline.ofCells cells).leaves) :
    slice (cells.flatMap image) leaf.rule.selectorList =
      leaf.list.flatMap image := by
  obtain ⟨before, after, rfl, hstart⟩ := Outline.exists_around_leaf h
  rw [Leaf.cells, List.append_assoc, List.flatMap_append, List.flatMap_append]
  refine slice_append _ _ _ ?_ ?_
  · rw [byteLength_flatMap himage, hstart]
    rfl
  · rw [byteLength_flatMap himage, byteLength_flatMap himage, hstart]
    rfl

theorem slice_declarations
    (himage : ∀ cell, byteLength (image cell) = cell.char.utf8Size)
    (h : leaf ∈ (Outline.ofCells cells).leaves) :
    slice (cells.flatMap image) leaf.rule.declarations =
      (blockCells leaf.inner).flatMap image := by
  obtain ⟨before, after, rfl, hstart⟩ := Outline.exists_around_leaf h
  have hwidth := leaf.width_cells
  rw [Leaf.cells, width_append] at hwidth
  have hblock : (blockCells leaf.inner ++ after).flatMap image =
      (blockCells leaf.inner).flatMap image ++ after.flatMap image :=
    List.flatMap_append
  rw [Leaf.cells, List.append_assoc, ← List.append_assoc before,
    List.flatMap_append, hblock]
  refine slice_append _ _ _ ?_ ?_
  · rw [byteLength_flatMap himage, width_append, hstart]
    rfl
  · rw [byteLength_flatMap himage, byteLength_flatMap himage, width_append,
      hstart]
    simp only [rule, Rule.declarations]
    omega

theorem slice_inner
    (himage : ∀ cell, byteLength (image cell) = cell.char.utf8Size)
    (h : leaf ∈ (Outline.ofCells cells).leaves) :
    slice (cells.flatMap image) ⟨leaf.rule.brace + 1, leaf.rule.stop - 1⟩ =
      leaf.inner.flatMap image := by
  obtain ⟨before, after, rfl, hstart⟩ := Outline.exists_around_leaf h
  have hcells : before ++ (leaf.cells ++ after) =
      (before ++ leaf.list ++ [codeCell '{']) ++
        (leaf.inner ++ (codeCell '}' :: after)) := by
    simp [Leaf.cells, blockCells]
  have hopen : '{'.utf8Size = 1 := rfl
  have hinner : (leaf.inner ++ codeCell '}' :: after).flatMap image =
      leaf.inner.flatMap image ++ (codeCell '}' :: after).flatMap image :=
    List.flatMap_append
  rw [hcells, List.flatMap_append, hinner]
  refine slice_append _ _ _ ?_ ?_
  · rw [byteLength_flatMap himage]
    simp [hstart, rule, codeCell, hopen]
    omega
  · rw [byteLength_flatMap himage, byteLength_flatMap himage]
    simp [hstart, rule, codeCell, hopen]
    omega

end Leaf

theorem chars_eq_flatMap (cells : List Cell) :
    chars cells = cells.flatMap (fun cell => [cell.char]) := by
  induction cells with
  | nil =>
      rfl
  | cons cell rest ih =>
      rw [chars_cons, ih]
      rfl

theorem byteLength_char (cell : Cell) :
    byteLength [cell.char] = cell.char.utf8Size := by
  simp

end Slices

section Decisions

/-- The steps of pruning, one behind the other. -/
theorem usedRules_eq (css page : Text) :
    usedRules css page =
      trimSpaces
        (EmptyRules.sweep
          (normalSpacing
            (Edit.applyAll (Masking.ofText css).uncommented
              ((Sheet.ofText css).plan (Inventory.ofPage page))))).text := by
  simp only [usedRules, outcomeOf, Sheet.pruneBy, tidy, Sheet.plan,
    Sheet.ofText]

/-- The decision about a leaf. -/
def Leaf.decision (inventory : Inventory) (leaf : Leaf) : Decision :=
  ⟨leaf.rule, Judgement.judge inventory
    (Selector.readList (leaf.list.flatMap Cell.masked) (chars leaf.list)
      leaf.start)⟩

/-- Decisions are made about the leaf passages. -/
theorem decisions_eq_map (css : Text) (inventory : Inventory) :
    (Sheet.ofText css).decisions inventory =
      (Outline.ofCells (settledCells css)).leaves.map
        (Leaf.decision inventory) := by
  have hleaves : Rule.leavesOf (Sheet.ofText css).rules =
      (Outline.ofCells (settledCells css)).leaves.map Leaf.rule := by
    rw [← Outline.leavesIn_masked, flatMap_masked_settledCells]
    rfl
  rw [Sheet.decisions, hleaves, List.map_map]
  refine List.map_congr_left ?_
  intro leaf hleaf
  have hmasked : slice (Masking.ofText css).masked leaf.rule.selectorList =
      leaf.list.flatMap Cell.masked := by
    rw [← flatMap_masked_settledCells]
    exact Leaf.slice_selectorList Cell.byteLength_masked hleaf
  have huncommented :
      slice (Masking.ofText css).uncommented leaf.rule.selectorList =
        chars leaf.list := by
    rw [← chars_settledCells, chars_eq_flatMap, chars_eq_flatMap]
    exact Leaf.slice_selectorList byteLength_char hleaf
  simp only [Function.comp_apply, Leaf.decision, Sheet.selectorsOf,
    Sheet.ofText, hmasked, huncommented]
  rfl

/-- The edits of a stylesheet act on its leaf passages. -/
theorem plan_eq_filterMap (css : Text) (inventory : Inventory) :
    (Sheet.ofText css).plan inventory =
      (Outline.ofCells (settledCells css)).leaves.filterMap
        (fun leaf => (leaf.decision inventory).edit?) := by
  rw [Sheet.plan, decisions_eq_map, List.filterMap_map]
  rfl

/-- A list that has members is not blank. -/
theorem not_blank_of_judge_ne_nil
    {inventory : Inventory} {masked uncommented : Text} {offset : Nat}
    (h : Judgement.judge inventory
      (Selector.readList masked uncommented offset) ≠ []) :
    masked.all isSpace = false := by
  cases hblank : masked.all isSpace with
  | false =>
      rfl
  | true =>
      refine absurd ?_ h
      simp [Selector.readList, hblank, Judgement.judge]

theorem judge_ne_nil_of_verdict
    {judgements : List Judgement}
    (h : Judgement.verdict judgements ≠ .keep) : judgements ≠ [] := by
  rintro rfl
  exact h rfl

end Decisions

end StylesheetPruning
