import Mathlib.Algebra.Order.BigOperators.Group.List
import Mathlib.Algebra.Order.Ring.Nat
import StylesheetPruning.Proofs.Pruning.Editing
import StylesheetPruning.Proofs.Stylesheet.Comments
import StylesheetPruning.Proofs.Stylesheet.Tidying

/-!
# When a second run changes nothing

No step of pruning adds anything but spaces, and every change but one of
spacing takes weight away. A pruned stylesheet is in normal spacing and
trimmed. So a second run leaves it alone exactly when it finds nothing to do.

**Exceptions.** A second run may find something to do: a group that lost its
rules is a leaf now, sixteen passes may have been too few for nested empty
rules, and a string that a line break ended runs on once the line break is a
space.

**Results.**
* `normalSpaced_usedRules`: the output is in normal spacing.
* `weight_usedRules_le`: a run adds no weight.
* `usedRules_eq_self_iff`: a run changes nothing about such an output exactly
  when it finds nothing to do.
* `usedRules_usedRules_eq_iff`: a second run changes nothing exactly when it
  finds nothing to do.
-/

namespace StylesheetPruning

section Comments

theorem weight_uncommented_cell (cell : Cell) :
    weight cell.uncommented ≤ weight [cell.char] := by
  cases hrole : cell.role <;> simp [Cell.uncommented, hrole]

theorem weight_flatMap_uncommented_le (cells : List Cell) :
    weight (cells.flatMap Cell.uncommented) ≤ weight (chars cells) := by
  induction cells with
  | nil =>
      exact Nat.le_refl 0
  | cons cell rest ih =>
      rw [List.flatMap_cons, weight_append, chars_cons,
        ← List.singleton_append, weight_append]
      exact Nat.add_le_add (weight_uncommented_cell cell) ih

/-- Blanking comments takes the weight of a slash away, or more. -/
theorem weight_flatMap_uncommented_lt
    {cells : List Cell} {cell : Cell} (hcell : cell ∈ cells)
    (hrole : cell.role = .commentStart) (hchar : cell.char = '/') :
    weight (cells.flatMap Cell.uncommented) < weight (chars cells) := by
  obtain ⟨front, back, rfl⟩ := List.append_of_mem hcell
  have hfront := weight_flatMap_uncommented_le front
  have hback := weight_flatMap_uncommented_le back
  have hslash : weight [cell.char] = 1 := by
    rw [hchar]
    rfl
  have hblank : weight cell.uncommented = 0 := by
    simp [Cell.uncommented, hrole]
  rw [List.flatMap_append, List.flatMap_cons, chars_append, chars_cons,
    ← List.singleton_append (l := chars back), weight_append, weight_append,
    weight_append, weight_append, hslash, hblank]
  omega

theorem weight_uncommented_le (css : Text) :
    weight (Masking.ofText css).uncommented ≤ weight css := by
  have h := weight_flatMap_uncommented_le (annotate .plain css).2
  rwa [chars_annotate] at h

theorem weight_uncommented_lt {css : Text}
    (h : (Masking.ofText css).comments ≠ []) :
    weight (Masking.ofText css).uncommented < weight css := by
  have hnot := mt (commentSpans_eq_nil_iff (annotate .plain css).2).mpr h
  simp only [not_forall, not_not] at hnot
  obtain ⟨cell, hcell, hrole⟩ := hnot
  have hchar :=
    (reads_annotate .plain css).eq_slash_of_commentStart cell hcell hrole
  have hlt := weight_flatMap_uncommented_lt hcell hrole hchar
  rwa [chars_annotate] at hlt

end Comments

namespace Outline

/-- Only the leaves change the weight of a rewritten stylesheet. -/
theorem weight_rewrite
    (image : Leaf → List Cell) (passages : List Passage) (offset : Nat) :
    weight (chars (rewrite image offset passages)) +
        ((leavesFrom offset passages).map
          (fun leaf => weight (chars leaf.cells))).sum =
      weight (chars (passages.flatMap Passage.cells)) +
        ((leavesFrom offset passages).map
          (fun leaf => weight (chars (image leaf)))).sum := by
  induction passages generalizing offset with
  | nil =>
      rfl
  | cons passage others ih =>
      cases passage with
      | run body fence =>
          have hothers := ih (offset + width body + fence.utf8Size)
          rw [leavesFrom, rewrite_run, chars_append, weight_append,
            List.flatMap_cons, chars_append, weight_append]
          omega
      | leaf list inner =>
          have hothers := ih (offset + width list + width inner + 2)
          rw [leavesFrom, rewrite, chars_append, weight_append,
            List.flatMap_cons, chars_append, weight_append, List.map_cons,
            List.sum_cons, List.map_cons, List.sum_cons]
          have hleaf : (Passage.leaf list inner).cells =
              Leaf.cells ⟨offset, list, inner⟩ := rfl
          rw [hleaf]
          omega

theorem weight_rewritten (image : Leaf → List Cell) (cells : List Cell) :
    weight (chars (rewritten image (ofCells cells))) +
        ((ofCells cells).leaves.map
          (fun leaf => weight (chars leaf.cells))).sum =
      weight (chars cells) +
        ((ofCells cells).leaves.map
          (fun leaf => weight (chars (image leaf)))).sum := by
  have hpassages := weight_rewrite image (ofCells cells).passages 0
  have hcells := congrArg (fun cells => weight (chars cells)) (cells_ofCells cells)
  simp only [Outline.cells, chars_append, weight_append] at hcells
  rw [rewritten, chars_append, weight_append, leaves]
  omega

variable {image : Leaf → List Cell} {cells : List Cell}

theorem weight_rewritten_le
    (h : ∀ leaf ∈ (ofCells cells).leaves,
      weight (chars (image leaf)) ≤ weight (chars leaf.cells)) :
    weight (chars (rewritten image (ofCells cells))) ≤ weight (chars cells) := by
  have heq := weight_rewritten image cells
  have hsum := List.sum_le_sum h
  omega

theorem weight_rewritten_lt
    (h : ∀ leaf ∈ (ofCells cells).leaves,
      weight (chars (image leaf)) ≤ weight (chars leaf.cells))
    (hlighter : ∃ leaf ∈ (ofCells cells).leaves,
      weight (chars (image leaf)) < weight (chars leaf.cells)) :
    weight (chars (rewritten image (ofCells cells))) < weight (chars cells) := by
  have heq := weight_rewritten image cells
  have hsum := List.sum_lt_sum _ _ h hlighter
  omega

end Outline

section Sweep

theorem Leaf.weight_swept_le (leaf : Leaf) :
    weight (chars leaf.swept) ≤ weight (chars leaf.cells) := by
  rw [swept]
  split
  · exact Nat.zero_le _
  · exact Nat.le_refl _

namespace EmptyRules

theorem weight_pass_le (text : Text) : weight (pass text) ≤ weight text := by
  have hle := @Outline.weight_rewritten_le _ (annotate .plain text).2
    (fun leaf _ => leaf.weight_swept_le)
  rwa [chars_annotate, ← pass_eq] at hle

/-- A pass that finds an empty rule takes its braces away. -/
theorem weight_pass_lt {text : Text}
    (h : spans (Masking.ofText text).masked ≠ []) :
    weight (pass text) < weight text := by
  rw [← chars_annotate .plain text, masked_annotate, Outline.spans_masked] at h
  have hempty : (Outline.ofCells (annotate .plain text).2).leaves.filter
      Leaf.isEmpty ≠ [] := by
    intro hnil
    rw [hnil] at h
    exact h rfl
  obtain ⟨leaf, hleaf⟩ := List.exists_mem_of_ne_nil _ hempty
  obtain ⟨hmem, hisEmpty⟩ := List.mem_filter.mp hleaf
  have hlt := Outline.weight_rewritten_lt
    (fun leaf _ => leaf.weight_swept_le) ⟨leaf, hmem, ?_⟩
  · rwa [chars_annotate, ← pass_eq] at hlt
  · rw [Leaf.swept, if_pos hisEmpty, Leaf.cells, chars_append, weight_append,
      weight_blockCells, chars_nil, weight_nil]
    omega

theorem weight_sweep_le (text : Text) :
    weight (sweep text).text ≤ weight text := by
  refine sweep_preserves (P := fun swept => weight swept ≤ weight text) ?_
    (Nat.le_refl _)
  intro swept hswept
  exact Nat.le_trans (weight_pass_le swept) hswept

theorem weight_sweep_lt {text : Text}
    (h : spans (Masking.ofText text).masked ≠ []) :
    weight (sweep text).text < weight text := by
  have hsweep : sweep text = Sweep.run 15 ⟨pass text, 0 + emptied text⟩ :=
    run_succ 15 ⟨text, 0⟩
  rw [hsweep]
  refine Nat.lt_of_le_of_lt ?_ (weight_pass_lt h)
  refine run_preserves (P := fun swept => weight swept ≤ weight (pass text)) ?_
    15 (Nat.le_refl _)
  intro swept hswept
  exact Nat.le_trans (weight_pass_le swept) hswept

end EmptyRules

end Sweep

section Output

theorem normalSpaced_usedRules (css page : Text) :
    NormalSpaced (usedRules css page) := by
  rw [usedRules_eq, ← text_tidy]
  exact normalSpaced_tidy _ _

end Output

section Finished

/-- A stylesheet in which pruning against a page finds nothing to do. -/
structure Finished (css page : Text) : Prop where
  comments : (Masking.ofText css).comments = []
  emptyRules : EmptyRules.spans (Masking.ofText css).masked = []
  decisions : ∀ decision ∈ (Sheet.ofText css).decisions (Inventory.ofPage page),
    decision.verdict = .keep

theorem unbrokenStrings_of_unbroken
    {css : Text} (h : ∀ c ∈ css, isLineBreak c = false) :
    UnbrokenStrings css := by
  have hbreaks : ∀ (text : Text) (state : Lexing),
      (∀ c ∈ text, isLineBreak c = false) → breaksString state text = false := by
    intro text
    induction text with
    | nil =>
        intro state _
        rfl
    | cons c rest ih =>
        intro state htext
        obtain ⟨hc, hrest⟩ := List.forall_mem_cons.mp htext
        rw [breaksString, hc, ih _ hrest, Bool.and_false, Bool.or_false]
  exact hbreaks css .plain h

/-- Edits take weight away, unless every leaf is kept. -/
theorem weight_applyAll_plan
    {css : Text} (h : UnbrokenStrings css) (inventory : Inventory) :
    weight (Edit.applyAll (Masking.ofText css).uncommented
        ((Sheet.ofText css).plan inventory)) ≤
        weight (Masking.ofText css).uncommented ∧
      (weight (Edit.applyAll (Masking.ofText css).uncommented
          ((Sheet.ofText css).plan inventory)) =
          weight (Masking.ofText css).uncommented →
        ∀ decision ∈ (Sheet.ofText css).decisions inventory,
          decision.verdict = .keep) := by
  obtain ⟨image, found, -, hedited, -⟩ := exists_images h inventory
  have hle : ∀ leaf ∈ (Outline.ofCells (settledCells css)).leaves,
      weight (chars (image leaf)) ≤ weight (chars leaf.cells) := by
    intro leaf hleaf
    rcases (hedited leaf hleaf).lighter with ⟨-, himage⟩ | hlt
    · rw [himage]
    · exact Nat.le_of_lt hlt
  rw [applyAll_plan hedited, ← chars_settledCells]
  refine ⟨Outline.weight_rewritten_le hle, ?_⟩
  intro hweight decision hdecision
  rw [decisions_eq_map] at hdecision
  obtain ⟨leaf, hleaf, rfl⟩ := List.mem_map.mp hdecision
  rcases (hedited leaf hleaf).lighter with ⟨hkeep, -⟩ | hlt
  · exact hkeep
  · have hlighter := Outline.weight_rewritten_lt hle ⟨leaf, hleaf, hlt⟩
    omega

/-- Without anything to do there are no edits. -/
theorem plan_eq_nil
    {sheet : Sheet} {inventory : Inventory}
    (h : ∀ decision ∈ sheet.decisions inventory, decision.verdict = .keep) :
    sheet.plan inventory = [] := by
  refine List.filterMap_eq_nil_iff.mpr ?_
  intro decision hdecision
  rw [Decision.edit?, h decision hdecision]

/-- The weight that steps take away behind the edits. -/
theorem weight_usedRules_le (css page : Text) :
    weight (usedRules css page) ≤
      weight (Edit.applyAll (Masking.ofText css).uncommented
        ((Sheet.ofText css).plan (Inventory.ofPage page))) := by
  have hsweep := EmptyRules.weight_sweep_le
    (normalSpacing (Edit.applyAll (Masking.ofText css).uncommented
      ((Sheet.ofText css).plan (Inventory.ofPage page))))
  rw [usedRules_eq, weight, ungapped_trimSpaces, ← weight]
  refine Nat.le_trans hsweep ?_
  rw [weight, (respaced_normalSpacing _).ungapped_eq, ← weight]

/--
A text in normal spacing that is trimmed stays as it is exactly when pruning
finds nothing to do.
-/
theorem usedRules_eq_self_iff
    {css page : Text} (hspaced : NormalSpaced css) (htrim : trimSpaces css = css) :
    usedRules css page = css ↔ Finished css page := by
  have hstrings := unbrokenStrings_of_unbroken hspaced.unbroken
  obtain ⟨hedits, hkeep⟩ :=
    weight_applyAll_plan hstrings (Inventory.ofPage page)
  constructor
  · intro heq
    have hused := weight_usedRules_le css page
    have huncommented := weight_uncommented_le css
    rw [heq] at hused
    have hcomments : (Masking.ofText css).comments = [] := by
      by_contra hne
      have hlt := weight_uncommented_lt hne
      omega
    have hdecisions := hkeep (by omega)
    refine ⟨hcomments, ?_, hdecisions⟩
    by_contra hne
    have hlt := EmptyRules.weight_sweep_lt hne
    rw [usedRules_eq, plan_eq_nil hdecisions, Edit.applyAll_nil,
      uncommented_eq_self hcomments, hspaced.eq_self] at heq
    have hweight := congrArg weight heq
    rw [weight, ungapped_trimSpaces, ← weight] at hweight
    omega
  · rintro ⟨hcomments, hempty, hdecisions⟩
    rw [usedRules_eq, plan_eq_nil hdecisions, Edit.applyAll_nil,
      uncommented_eq_self hcomments, hspaced.eq_self,
      EmptyRules.sweep_eq_self hempty]
    exact htrim

/-- A second run changes nothing exactly when it finds nothing to do. -/
theorem usedRules_usedRules_eq_iff (css page : Text) :
    usedRules (usedRules css page) page = usedRules css page ↔
      Finished (usedRules css page) page := by
  refine usedRules_eq_self_iff (normalSpaced_usedRules css page) ?_
  rw [usedRules_eq]
  exact trimSpaces_trimSpaces _

/--
A group with declarations of its own is a leaf once it has lost its rules, and
a second run drops it.
-/
theorem usedRules_usedRules_ne_group :
    usedRules ".card{color:red;.title{x:1}}".toList "<p></p>".toList =
      ".card{color:red; }".toList ∧
    usedRules
        (usedRules ".card{color:red;.title{x:1}}".toList "<p></p>".toList)
        "<p></p>".toList ≠
      usedRules ".card{color:red;.title{x:1}}".toList "<p></p>".toList := by
  decide +kernel

end Finished

end StylesheetPruning
