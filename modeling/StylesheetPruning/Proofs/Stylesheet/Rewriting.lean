import StylesheetPruning.Proofs.Edit.Rebuild
import StylesheetPruning.Proofs.Stylesheet.Block
import StylesheetPruning.Proofs.Stylesheet.Outline

/-!
# Rewriting leaves

Pruning and sweeping edit leaves only: each leaf is replaced by other cells,
and everything else stays. When the edit of every leaf makes its new text out
of its old one, the edits together make the new stylesheet out of the old one.

**Results.**
* `applyAll_rewritten`: the edits of the leaves rewrite the stylesheet.
* `reads_rewritten`: a stylesheet whose leaves become blocks is read calmly.
-/

namespace StylesheetPruning

section Wholeness

/-- The parts of a passage between its fences are whole. -/
def Passage.Whole : Passage → Prop
  | run body fence => isFence fence = true ∧ StylesheetPruning.Whole body
  | leaf list inner =>
      StylesheetPruning.Whole list ∧ StylesheetPruning.Whole inner

theorem block_blockCells {inner : List Cell} (h : Whole inner) :
    Block (blockCells inner) := by
  have hblock : Block ([codeCell '{'] ++ (inner ++ [codeCell '}'])) :=
    Block.append (whole_nil '{' rfl) (h '}' rfl)
  exact hblock

theorem block_leaf {list inner : List Cell}
    (hlist : Whole list) (hinner : Whole inner) :
    Block (list ++ blockCells inner) := by
  have hblock : Block ((list ++ [codeCell '{']) ++ (inner ++ [codeCell '}'])) :=
    (hlist '{' rfl).append (hinner '}' rfl)
  simpa [blockCells] using hblock

theorem Passage.block {passage : Passage} (h : passage.Whole) :
    Block passage.cells := by
  cases passage with
  | run body fence =>
      exact h.2 fence (isStop_of_isFence h.1)
  | leaf list inner =>
      exact block_leaf h.1 h.2

/-- The passages of a stylesheet that is read calmly are whole. -/
theorem whole_of_reads_passages
    {passages : List Passage} (hproper : Outline.Proper passages)
    {rest : List Cell} {next : Option Char} {state : Lexing}
    (h : Reads calmly .plain (passages.flatMap Passage.cells ++ rest) next
      state) :
    (∀ passage ∈ passages, passage.Whole) ∧
      Reads calmly .plain rest next state := by
  induction hproper with
  | nil =>
      exact ⟨by simp, h⟩
  | @run body fence others _ hfence _ _ ih =>
      rw [List.flatMap_cons, List.append_assoc] at h
      obtain ⟨between, hfront, hback⟩ := reads_append.mp h
      obtain ⟨hbody, rfl⟩ := whole_of_reads (isStop_of_isFence hfence) hfront
      obtain ⟨hothers, hrest⟩ := ih hback
      refine ⟨?_, hrest⟩
      intro passage hpassage
      rcases List.mem_cons.mp hpassage with rfl | hpassage
      · exact ⟨hfence, hbody⟩
      · exact hothers passage hpassage
  | @leaf list inner others _ _ _ ih =>
      rw [List.flatMap_cons, List.append_assoc] at h
      obtain ⟨between, hfront, hback⟩ := reads_append.mp h
      have hcells : (Passage.leaf list inner).cells =
          (list ++ codeCell '{' :: inner) ++ [codeCell '}'] := by
        simp [Passage.cells, blockCells]
      rw [hcells] at hfront
      obtain ⟨hwhole, rfl⟩ := whole_of_reads rfl hfront
      obtain ⟨hothers, hrest⟩ := ih hback
      refine ⟨?_, hrest⟩
      intro passage hpassage
      rcases List.mem_cons.mp hpassage with rfl | hpassage
      · exact (whole_append_cons rfl).mp hwhole
      · exact hothers passage hpassage

end Wholeness

namespace Leaf

/-- The cells of a leaf. -/
def cells (leaf : Leaf) : List Cell :=
  leaf.list ++ blockCells leaf.inner

/-- The parts of a leaf are whole. -/
def Whole (leaf : Leaf) : Prop :=
  StylesheetPruning.Whole leaf.list ∧ StylesheetPruning.Whole leaf.inner

theorem block {leaf : Leaf} (h : leaf.Whole) : Block leaf.cells :=
  block_leaf h.1 h.2

theorem width_cells (leaf : Leaf) :
    width leaf.cells = width leaf.list + width leaf.inner + 2 := by
  have hopen : '{'.utf8Size = 1 := rfl
  have hclose : '}'.utf8Size = 1 := rfl
  simp only [cells, blockCells, width_append, width_cons, width_nil, codeCell,
    hopen, hclose]
  omega

theorem cells_ne_nil (leaf : Leaf) : leaf.cells ≠ [] := by
  simp [cells, blockCells]

end Leaf

namespace Outline

/-- Passages, the first of which starts at an offset, with other leaves. -/
def rewrite (image : Leaf → List Cell) : Nat → List Passage → List Cell
  | _, [] => []
  | offset, .run body fence :: others =>
      body ++ codeCell fence ::
        rewrite image (offset + width body + fence.utf8Size) others
  | offset, .leaf list inner :: others =>
      image ⟨offset, list, inner⟩ ++
        rewrite image (offset + width list + width inner + 2) others

/-- An outline with other leaves. -/
def rewritten (image : Leaf → List Cell) (outline : Outline) : List Cell :=
  rewrite image 0 outline.passages ++ outline.rest

theorem rewrite_run
    (image : Leaf → List Cell) (offset : Nat) (body : List Cell) (fence : Char)
    (others : List Passage) :
    rewrite image offset (.run body fence :: others) =
      (Passage.run body fence).cells ++
        rewrite image (offset + width body + fence.utf8Size) others := by
  simp [rewrite, Passage.cells]

theorem leaves_whole
    {passages : List Passage} (h : ∀ passage ∈ passages, passage.Whole)
    (offset : Nat) :
    ∀ leaf ∈ leavesFrom offset passages, leaf.Whole := by
  induction passages generalizing offset with
  | nil =>
      simp [leavesFrom]
  | cons passage others ih =>
      have hothers := ih (fun p hp => h p (List.mem_cons_of_mem passage hp))
      cases passage with
      | run body fence =>
          exact hothers _
      | leaf list inner =>
          intro leaf hleaf
          rcases List.mem_cons.mp hleaf with rfl | hleaf
          · exact h (.leaf list inner) (by simp)
          · exact hothers _ leaf hleaf

theorem block_rewrite
    {image : Leaf → List Cell} {passages : List Passage}
    (hwhole : ∀ passage ∈ passages, passage.Whole) (offset : Nat)
    (himage : ∀ leaf ∈ leavesFrom offset passages, Block (image leaf)) :
    Block (rewrite image offset passages) := by
  induction passages generalizing offset with
  | nil =>
      exact block_nil
  | cons passage others ih =>
      have hothers : ∀ p ∈ others, p.Whole :=
        fun p hp => hwhole p (List.mem_cons_of_mem passage hp)
      have hpassage := Passage.block (hwhole passage (by simp))
      cases passage with
      | run body fence =>
          rw [rewrite_run]
          exact hpassage.append (ih hothers _ himage)
      | leaf list inner =>
          simp only [leavesFrom, List.forall_mem_cons] at himage
          exact himage.1.append (ih hothers _ himage.2)

/-- A stylesheet whose leaves become blocks is read calmly. -/
theorem reads_rewritten
    {image : Leaf → List Cell} {cells : List Cell} {state : Lexing}
    (h : Reads calmly .plain cells none state)
    (himage : ∀ leaf ∈ (ofCells cells).leaves,
      leaf.Whole → Block (image leaf)) :
    Reads calmly .plain (rewritten image (ofCells cells)) none state := by
  rw [← passages_append_rest cells] at h
  obtain ⟨hwhole, hrest⟩ :=
    whole_of_reads_passages (proper_ofCells cells).1 h
  have hblock : Block (rewrite image 0 (ofCells cells).passages) := by
    refine block_rewrite hwhole 0 ?_
    intro leaf hleaf
    exact himage leaf hleaf (leaves_whole hwhole 0 leaf hleaf)
  exact (hblock _).append hrest

theorem rebuilt_rewrite
    {change : Leaf → Option Edit} {image : Leaf → List Cell}
    (passages : List Passage) (offset : Nat)
    (h : ∀ leaf ∈ leavesFrom offset passages,
      Rebuilt leaf.start (chars leaf.cells) (change leaf).toList
        (chars (image leaf))) :
    Rebuilt offset (chars (passages.flatMap Passage.cells))
      ((leavesFrom offset passages).filterMap change)
      (chars (rewrite image offset passages)) := by
  induction passages generalizing offset with
  | nil =>
      exact .done offset []
  | cons passage others ih =>
      rw [List.flatMap_cons, chars_append]
      cases passage with
      | run body fence =>
          have hothers := ih _ h
          have hwidth :
              offset + width body + fence.utf8Size =
                offset + byteLength (chars (Passage.run body fence).cells) := by
            simp [Passage.cells, width, codeCell]
            omega
          rw [rewrite_run, chars_append]
          refine .keep ?_
          rw [← hwidth]
          exact hothers
      | leaf list inner =>
          simp only [leavesFrom, List.forall_mem_cons] at h
          have hothers := ih _ h.2
          have hwidth :
              offset + width list + width inner + 2 =
                offset + byteLength (chars (Passage.leaf list inner).cells) := by
            have hleaf := Leaf.width_cells ⟨offset, list, inner⟩
            simp only [Leaf.cells, width] at hleaf
            simp only [Passage.cells, width, hleaf]
            omega
          rw [hwidth] at hothers
          have happend := h.1.append hothers
          rw [← hwidth] at happend
          have hedits :
              (leavesFrom offset (.leaf list inner :: others)).filterMap change =
                (change ⟨offset, list, inner⟩).toList ++
                  (leavesFrom (offset + width list + width inner + 2)
                    others).filterMap change := by
            simp only [leavesFrom, List.filterMap_cons]
            cases change ⟨offset, list, inner⟩ <;> rfl
          rw [hedits, rewrite, chars_append]
          exact happend

/-- The edits of the leaves are one pass over the stylesheet. -/
theorem rebuilt_rewritten
    {change : Leaf → Option Edit} {image : Leaf → List Cell}
    {cells : List Cell}
    (h : ∀ leaf ∈ (ofCells cells).leaves,
      Rebuilt leaf.start (chars leaf.cells) (change leaf).toList
        (chars (image leaf))) :
    Rebuilt 0 (chars cells) ((ofCells cells).leaves.filterMap change)
      (chars (rewritten image (ofCells cells))) := by
  have hpassages := rebuilt_rewrite (ofCells cells).passages 0 h
  have hall := hpassages.append (.done _ (chars (ofCells cells).rest))
  rw [← chars_append, passages_append_rest, List.append_nil,
    ← chars_append] at hall
  exact hall

/-- The edits of the leaves rewrite the stylesheet. -/
theorem applyAll_rewritten
    {change : Leaf → Option Edit} {image : Leaf → List Cell}
    {cells : List Cell}
    (h : ∀ leaf ∈ (ofCells cells).leaves,
      Rebuilt leaf.start (chars leaf.cells) (change leaf).toList
        (chars (image leaf))) :
    Edit.applyAll (chars cells) ((ofCells cells).leaves.filterMap change) =
      chars (rewritten image (ofCells cells)) :=
  Edit.applyAll_of_rebuilt (rebuilt_rewritten h)

end Outline

end StylesheetPruning
