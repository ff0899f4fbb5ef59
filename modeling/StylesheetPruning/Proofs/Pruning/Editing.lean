import Mathlib.Tactic.Choose
import StylesheetPruning.Proofs.Pruning.Planning
import StylesheetPruning.Proofs.Stylesheet.Braces

/-!
# What an edit leaves of a leaf

The edit of a leaf leaves cells that are a block and that yield what the leaf
says, unless it is dropped or blank. It leaves the leaf as it is, or makes it
lighter.

**Results.**
* `exists_edited`: the cells that an edit leaves, verdict by verdict.
* `exists_images`: so the edits of a stylesheet rewrite its leaves.
-/

namespace StylesheetPruning

/-- The selector list and the block of a leaf, without gaps. -/
abbrev Statement := Text × Text

section Hollowness

/-- Whole cells that are hollow are blank. -/
theorem all_isSpace_of_hollow
    {cells : List Cell} (hwhole : Whole cells) (h : Hollow cells) :
    (cells.flatMap Cell.masked).all isSpace = true := by
  obtain ⟨state, hread, -⟩ := reads_append.mp (hwhole ' ' rfl none)
  have hquoted := hread.not_quoted_of_hollow rfl h
  rw [List.all_eq_true]
  intro c hc
  obtain ⟨cell, hcell, hmem⟩ := List.mem_flatMap.mp hc
  rcases hread.uncommented cell hcell with hrole | hrole
  · rw [Cell.masked, hrole, List.mem_singleton] at hmem
    rw [hmem]
    exact h cell hcell hrole
  · exact absurd hrole (hquoted cell hcell)

/-- What carries structure and is no whitespace has weight. -/
theorem weight_pos_of_not_hollow {cells : List Cell} (h : ¬ Hollow cells) :
    0 < weight (chars cells) := by
  simp only [Hollow, not_forall] at h
  obtain ⟨cell, hcell, -, hspace⟩ := h
  have hgap : isGap cell.char ≠ true := fun hgap => hspace (isSpace_of_isGap hgap)
  refine List.length_pos_of_mem (a := cell.char) (List.mem_filter.mpr ⟨?_, ?_⟩)
  · exact List.mem_map_of_mem hcell
  · simpa using hgap

theorem weight_blockCells (inner : List Cell) :
    weight (chars (blockCells inner)) = weight (chars inner) + 2 := by
  have hopen : ∀ text, weight ('{' :: text) = weight text + 1 :=
    fun _ => rfl
  have hclose : weight ['}'] = 1 := rfl
  simp [blockCells, codeCell, hopen, hclose]

end Hollowness

section Edited

/-- The statement of a leaf whose cells are given without gaps. -/
def printed (leaf : List Cell × List Cell) : Statement :=
  (chars leaf.1, chars (blockCells leaf.2))

theorem printed_gist (list inner : List Cell) :
    printed (gist list, gist inner) =
      (ungapped (chars list), ungapped (chars (blockCells inner))) := by
  have hblock : blockCells (gist inner) = gist (blockCells inner) := by
    simp [blockCells, gist_cons_codeCell (c := '{') rfl,
      gist_cons_codeCell (c := '}') rfl]
  rw [printed, hblock, chars_gist, chars_gist]

/-- What a leaf says that is not dropped. -/
def Leaf.liveList (inventory : Inventory) (leaf : Leaf) : Text :=
  match (leaf.decision inventory).verdict with
  | .keep => chars leaf.list
  | .reduce _ | .drop =>
      List.intercalate [',']
        (Judgement.liveSources (leaf.decision inventory).judgements)

/-- What is found of a leaf behind its edit. -/
def Leaf.statements (inventory : Inventory) (leaf : Leaf) : List Statement :=
  if (leaf.decision inventory).drops || leaf.isEmpty then []
  else
    [(ungapped (leaf.liveList inventory),
      ungapped (chars (blockCells leaf.inner)))]

/-- Cells that end at a closing brace, up to spaces. -/
def EndsClosed (cells : List Cell) : Prop :=
  ∃ front n, cells = front ++ codeCell '}' :: (spaces n).map codeCell

theorem EndsClosed.append_left {cells : List Cell} (h : EndsClosed cells)
    (front : List Cell) : EndsClosed (front ++ cells) := by
  obtain ⟨front', n, rfl⟩ := h
  exact ⟨front ++ front', n, by rw [List.append_assoc]⟩

theorem endsClosed_blockCells (inner : List Cell) :
    EndsClosed (blockCells inner) :=
  ⟨codeCell '{' :: inner, 0, rfl⟩

/-- The cells that the edit of a leaf leaves, and the leaves they yield. -/
structure Edited (inventory : Inventory) (leaf : Leaf) (image : List Cell)
    (found : List (List Cell × List Cell)) : Prop where
  rebuilt : Rebuilt leaf.start (chars leaf.cells)
    (leaf.decision inventory).edit?.toList (chars image)
  block : Block image
  yields : Yields image found
  statements : (leaf.statements inventory).Sublist (found.map printed)
  lighter :
    (leaf.decision inventory).verdict = .keep ∧ image = leaf.cells ∨
      weight (chars image) < weight (chars leaf.cells)
  braces : braces (visible image) = ['{', '}']
  emptied : (leaf.decision inventory).drops = true →
    0 < emptyPairs (visible image)
  ends : EndsClosed image

variable {inventory : Inventory} {leaf : Leaf}

/-- A leaf that keeps its block yields its new list, unless it is blank. -/
theorem exists_yields_block
    {list : List Cell} (hlist : Fenceless list)
    (hinner : Braceless leaf.inner) (hwhole : Whole leaf.inner) :
    ∃ found, Yields (list ++ blockCells leaf.inner) found ∧
      (if leaf.isEmpty then []
        else [(ungapped (chars list),
          ungapped (chars (blockCells leaf.inner)))]).Sublist
        (found.map printed) := by
  refine ⟨_, yields_leaf hlist hinner, ?_⟩
  by_cases hhollow : Hollow leaf.inner
  · have hempty : leaf.isEmpty = true := all_isSpace_of_hollow hwhole hhollow
    rw [if_pos hempty]
    exact List.nil_sublist _
  · rw [if_neg hhollow, List.map_singleton, printed_gist]
    split
    · exact List.nil_sublist _
    · exact List.Sublist.refl _

theorem exists_edited_keep
    (hverdict : (leaf.decision inventory).verdict = .keep)
    (hlist : Fenceless leaf.list) (hinner : Braceless leaf.inner)
    (hwhole : leaf.Whole) :
    ∃ image found, Edited inventory leaf image found := by
  obtain ⟨found, hyields, hfound⟩ :=
    exists_yields_block hlist hinner hwhole.2
  refine ⟨leaf.cells, found, ?_, Leaf.block hwhole, hyields, ?_,
    .inl ⟨hverdict, rfl⟩, braces_visible_leaf hlist hinner,
    by simp [Decision.drops, hverdict],
    (endsClosed_blockCells leaf.inner).append_left leaf.list⟩
  · have hrebuilt := leaf.rebuilt_outputText inventory
    rw [Leaf.outputText, hverdict] at hrebuilt
    exact hrebuilt
  · simpa [Leaf.statements, Decision.drops, Leaf.liveList, hverdict] using hfound

/-- The list of a leaf that is not kept has weight. -/
theorem weight_list_pos
    (hverdict : (leaf.decision inventory).verdict ≠ .keep)
    (hwhole : leaf.Whole) :
    (leaf.list.flatMap Cell.masked).all isSpace = false ∧
      0 < weight (chars leaf.list) := by
  have hblank := Leaf.not_blank hverdict
  refine ⟨hblank, weight_pos_of_not_hollow ?_⟩
  intro hhollow
  rw [all_isSpace_of_hollow hwhole.1 hhollow] at hblank
  cases hblank

theorem exists_edited_reduce
    {dead : List Nat}
    (hverdict : (leaf.decision inventory).verdict = .reduce dead)
    (hlist : Fenceless leaf.list) (hinner : Braceless leaf.inner)
    (hwhole : leaf.Whole) :
    ∃ image found, Edited inventory leaf image found := by
  have hkeep := Leaf.ne_keep_of_reduce hverdict
  obtain ⟨hblank, hweight⟩ := weight_list_pos hkeep hwhole
  have hfit := fitText_of_mem_judge ⟨hwhole.1, hlist⟩ inventory leaf.start
  have hfitKept :
      FitText (Judgement.keptText (leaf.decision inventory).judgements) :=
    Judgement.fitText_keptText hfit
  obtain ⟨kept, hkept, hkeptWhole, hkeptFenceless⟩ := hfitKept
  obtain ⟨found, hyields, hfound⟩ :=
    exists_yields_block hkeptFenceless hinner hwhole.2
  refine ⟨kept ++ blockCells leaf.inner, found, ?_,
    block_leaf hkeptWhole hwhole.2, hyields, ?_, .inr ?_,
    braces_visible_leaf hkeptFenceless hinner,
    by simp [Decision.drops, hverdict],
    (endsClosed_blockCells leaf.inner).append_left kept⟩
  · have hrebuilt := leaf.rebuilt_outputText inventory
    rw [Leaf.outputText, hverdict] at hrebuilt
    rw [chars_append, hkept]
    exact hrebuilt
  · rw [hkept, Judgement.ungapped_keptText] at hfound
    simpa [Leaf.statements, Decision.drops, Leaf.liveList, hverdict]
      using hfound
  · have hdead : ∃ judgement ∈ (leaf.decision inventory).judgements,
        judgement.live = false := by
      have hnot := mt (Judgement.verdict_eq_keep_iff
        (leaf.decision inventory).judgements).mpr hkeep
      simpa using hnot
    have hlighter := Judgement.weight_keptText_lt
      (intercalate_sources hblank inventory leaf.start) hweight hdead
    rw [Leaf.cells, chars_append, chars_append, weight_append, weight_append,
      hkept]
    exact Nat.add_lt_add_right hlighter _

theorem exists_edited_drop
    (hverdict : (leaf.decision inventory).verdict = .drop)
    (hwhole : leaf.Whole) :
    ∃ image found, Edited inventory leaf image found := by
  have hkeep : (leaf.decision inventory).verdict ≠ .keep := by
    rw [hverdict]
    simp
  obtain ⟨-, hweight⟩ := weight_list_pos hkeep hwhole
  have hblock : Yields (blockCells []) [] := by
    have hlist : Fenceless [] := by
      simp [Fenceless]
    exact yields_leaf hlist hlist.braceless
  have hvisible : visible (blockCells [] ++
      (spaces (leaf.rule.span.length - 2)).map codeCell) = ['{', '}'] := by
    rw [visible_append, visible_spaces]
    rfl
  refine ⟨blockCells [] ++
    (spaces (leaf.rule.span.length - 2)).map codeCell, [], ?_, ?_, ?_, ?_,
    .inr ?_, ?_, ?_, ⟨[codeCell '{'], _, rfl⟩⟩
  · have hrebuilt := leaf.rebuilt_outputText inventory
    rw [Leaf.outputText, hverdict] at hrebuilt
    rw [chars_append, chars_map_codeCell]
    exact hrebuilt
  · exact (block_blockCells whole_nil).append (block_spaces _)
  · exact hblock.append (yields_spaces _)
  · simp [Leaf.statements, Decision.drops, hverdict]
  · have hbraces : weight (chars (blockCells [])) = 2 := rfl
    have hinner := weight_blockCells leaf.inner
    rw [chars_append, chars_map_codeCell, Leaf.cells, chars_append,
      weight_append, weight_append, weight_spaces]
    omega
  · rw [hvisible]
    rfl
  · rw [hvisible]
    exact fun _ => Nat.one_pos

/-- The cells that an edit leaves, verdict by verdict. -/
theorem exists_edited
    (inventory : Inventory) (hlist : Fenceless leaf.list)
    (hinner : Braceless leaf.inner) (hwhole : leaf.Whole) :
    ∃ image found, Edited inventory leaf image found := by
  cases hverdict : (leaf.decision inventory).verdict with
  | keep =>
      exact exists_edited_keep hverdict hlist hinner hwhole
  | reduce dead =>
      exact exists_edited_reduce hverdict hlist hinner hwhole
  | drop =>
      exact exists_edited_drop hverdict hwhole

/-- The edits of a stylesheet without broken strings rewrite its leaves. -/
theorem exists_images
    {css : Text} (h : UnbrokenStrings css) (inventory : Inventory) :
    ∃ (image : Leaf → List Cell)
        (found : Leaf → List (List Cell × List Cell)) (state : Lexing),
      (∀ leaf ∈ (Outline.ofCells (settledCells css)).leaves,
        Edited inventory leaf (image leaf) (found leaf)) ∧
      Reads calmly .plain
        (Outline.rewritten image (Outline.ofCells (settledCells css))) none
        state := by
  obtain ⟨state, hread⟩ := exists_reads_settledCells h
  have hwhole : ∀ leaf ∈ (Outline.ofCells (settledCells css)).leaves,
      leaf.Whole := by
    have hpassages := hread
    rw [← Outline.passages_append_rest (settledCells css)] at hpassages
    exact Outline.leaves_whole
      (whole_of_reads_passages (Outline.proper_ofCells _).1 hpassages).1 0
  have hedited : ∀ leaf : Leaf, ∃ image found,
      leaf ∈ (Outline.ofCells (settledCells css)).leaves →
        Edited inventory leaf image found := by
    intro leaf
    by_cases hleaf : leaf ∈ (Outline.ofCells (settledCells css)).leaves
    · obtain ⟨hlist, hinner⟩ := Outline.parts_of_mem_leaves hleaf
      obtain ⟨image, found, himage⟩ :=
        exists_edited inventory hlist hinner (hwhole leaf hleaf)
      exact ⟨image, found, fun _ => himage⟩
    · exact ⟨[], [], fun h => absurd h hleaf⟩
  choose image found himage using hedited
  exact ⟨image, found, state, himage, Outline.reads_rewritten hread
    (fun leaf hleaf _ => (himage leaf hleaf).block)⟩

/-- The edited text is the rewritten stylesheet. -/
theorem applyAll_plan
    {css : Text} {inventory : Inventory} {image : Leaf → List Cell}
    {found : Leaf → List (List Cell × List Cell)}
    (h : ∀ leaf ∈ (Outline.ofCells (settledCells css)).leaves,
      Edited inventory leaf (image leaf) (found leaf)) :
    Edit.applyAll (Masking.ofText css).uncommented
        ((Sheet.ofText css).plan inventory) =
      chars (Outline.rewritten image (Outline.ofCells (settledCells css))) := by
  rw [← chars_settledCells, plan_eq_filterMap]
  exact Outline.applyAll_rewritten (fun leaf hleaf => (h leaf hleaf).rebuilt)

end Edited

end StylesheetPruning
