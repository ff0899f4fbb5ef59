import StylesheetPruning.Proofs.Pruning.FixedPoint
import StylesheetPruning.Proofs.Pruning.Planning

/-!
# What a pruned stylesheet is made of

No step of pruning invents a character, moves one past another or makes the
stylesheet longer, spaces and line breaks apart. This needs no assumption:
where the second masking sees other strings than the first one, a pass still
deletes whole spans.

**Results.**
* `sublist_rewrite`: leaves that lose characters only make a text that does.
* `ungapped_usedRules_sublist`: what is left is in the stylesheet, in order,
  and has no more bytes.
-/

namespace StylesheetPruning

section Sublists

theorem byteLength_le_of_sublist {text text' : Text} (h : text.Sublist text') :
    byteLength text ≤ byteLength text' := by
  induction h with
  | slnil =>
      exact Nat.le_refl _
  | cons c _ ih =>
      rw [byteLength_cons]
      omega
  | cons_cons c _ ih =>
      rw [byteLength_cons, byteLength_cons]
      omega

theorem ungapped_sublist {text text' : Text} (h : text.Sublist text') :
    (ungapped text).Sublist (ungapped text') :=
  h.filter _

theorem intercalate_cons_eq (first : Text) (others : List Text) :
    List.intercalate [','] (first :: others) =
      first ++ others.flatMap (fun other => ',' :: other) := by
  induction others generalizing first with
  | nil =>
      simp
  | cons second others ih =>
      rw [List.intercalate_cons_cons, ih, List.flatMap_cons]
      simp

theorem flatMap_sublist {parts parts' : List Text}
    (h : parts.Sublist parts') (f : Text → Text) :
    (parts.flatMap f).Sublist (parts'.flatMap f) := by
  induction h with
  | slnil =>
      exact .slnil
  | cons part _ ih =>
      rw [List.flatMap_cons]
      exact ih.trans (List.sublist_append_right _ _)
  | cons_cons part _ ih =>
      rw [List.flatMap_cons, List.flatMap_cons]
      exact (List.Sublist.refl _).append ih

/-- Leaving out members of a list leaves out text. -/
theorem intercalate_sublist {parts parts' : List Text}
    (h : parts.Sublist parts') :
    (List.intercalate [','] parts).Sublist (List.intercalate [','] parts') := by
  induction h with
  | slnil =>
      exact .slnil
  | @cons parts parts' part hparts ih =>
      cases parts' with
      | nil =>
          rw [List.sublist_nil.mp hparts]
          exact List.nil_sublist _
      | cons second others =>
          rw [List.intercalate_cons_cons]
          exact ih.trans (List.sublist_append_right _ _)
  | @cons_cons parts parts' part hparts ih =>
      rw [intercalate_cons_eq, intercalate_cons_eq]
      exact (List.Sublist.refl part).append (flatMap_sublist hparts _)

end Sublists

namespace Outline

variable {image : Leaf → List Cell} {p : Char → Bool}

/-- Passages whose leaves lose characters of a kind only lose such ones. -/
theorem sublist_rewrite
    (passages : List Passage) (offset : Nat)
    (h : ∀ leaf ∈ leavesFrom offset passages,
      ((chars (image leaf)).filter p).Sublist ((chars leaf.cells).filter p)) :
    ((chars (rewrite image offset passages)).filter p).Sublist
      ((chars (passages.flatMap Passage.cells)).filter p) := by
  induction passages generalizing offset with
  | nil =>
      exact List.Sublist.refl _
  | cons passage others ih =>
      cases passage with
      | run body fence =>
          have hothers := ih _ h
          rw [rewrite_run, List.flatMap_cons, chars_append, chars_append,
            List.filter_append, List.filter_append]
          exact (List.Sublist.refl _).append hothers
      | leaf list inner =>
          simp only [leavesFrom, List.forall_mem_cons] at h
          rw [rewrite, List.flatMap_cons, chars_append, chars_append,
            List.filter_append, List.filter_append]
          exact h.1.append (ih _ h.2)

theorem sublist_rewritten
    {cells : List Cell}
    (h : ∀ leaf ∈ (ofCells cells).leaves,
      ((chars (image leaf)).filter p).Sublist ((chars leaf.cells).filter p)) :
    ((chars (rewritten image (ofCells cells))).filter p).Sublist
      ((chars cells).filter p) := by
  have hpassages := sublist_rewrite (ofCells cells).passages 0 h
  have hall := hpassages.append
    (List.Sublist.refl ((chars (ofCells cells).rest).filter p))
  rwa [← List.filter_append, ← List.filter_append, ← chars_append,
    ← chars_append, passages_append_rest] at hall

end Outline

section Steps

theorem ungapped_flatMap_uncommented_sublist (cells : List Cell) :
    (ungapped (cells.flatMap Cell.uncommented)).Sublist
      (ungapped (chars cells)) := by
  have hcell : ∀ cell : Cell,
      (ungapped cell.uncommented).Sublist (ungapped [cell.char]) := by
    intro cell
    cases hrole : cell.role <;> simp [Cell.uncommented, hrole]
  induction cells with
  | nil =>
      exact List.Sublist.refl _
  | cons cell rest ih =>
      rw [List.flatMap_cons, chars_cons, ← List.singleton_append,
        ungapped_append, ungapped_append]
      exact (hcell cell).append ih

/-- Blanking comments takes characters away. -/
theorem ungapped_uncommented_sublist (css : Text) :
    (ungapped (Masking.ofText css).uncommented).Sublist (ungapped css) := by
  have h := ungapped_flatMap_uncommented_sublist (annotate .plain css).2
  rwa [chars_annotate] at h

/-- What an edit leaves of a leaf is in the leaf. -/
theorem Leaf.ungapped_outputText_sublist
    (inventory : Inventory) (leaf : Leaf) :
    (ungapped (leaf.outputText inventory)).Sublist
      (ungapped (chars leaf.cells)) := by
  cases hverdict : (leaf.decision inventory).verdict with
  | keep =>
      rw [outputText, hverdict]
  | reduce dead =>
      have hblank := not_blank (ne_keep_of_reduce hverdict)
      have hlive : (Judgement.liveSources
            (leaf.decision inventory).judgements).Sublist
          ((leaf.decision inventory).judgements.map
            (fun judgement => judgement.selector.source)) :=
        List.filter_sublist.map _
      have hkept := ungapped_sublist (intercalate_sublist hlive)
      rw [decision, intercalate_sources hblank inventory leaf.start] at hkept
      rw [outputText, hverdict, cells, chars_append, ungapped_append,
        ungapped_append, Judgement.ungapped_keptText]
      exact hkept.append (List.Sublist.refl _)
  | drop =>
      have hbraces : ungapped leaf.rule.emptied.replacement = ['{', '}'] := by
        have hspaces := ungapped_spaces (leaf.rule.span.length - 2)
        exact congrArg (fun text => '{' :: '}' :: text) hspaces
      have hblock : ungapped (chars (blockCells leaf.inner)) =
          '{' :: (ungapped (chars leaf.inner) ++ ['}']) := by
        have hopen : ∀ text, ungapped ('{' :: text) = '{' :: ungapped text :=
          fun _ => rfl
        have hclose : ungapped ['}'] = ['}'] := rfl
        simp [blockCells, codeCell, hopen, hclose]
      rw [outputText, hverdict, cells, chars_append, ungapped_append, hblock]
      simp only
      rw [hbraces]
      exact (List.Sublist.cons_cons _ (List.sublist_append_right _ _)).trans
        (List.sublist_append_right _ _)

/-- Edits take characters away, and keep the length. -/
theorem edited_sublist (css : Text) (inventory : Inventory) :
    (ungapped ((Sheet.ofText css).edited inventory)).Sublist
        (ungapped (Masking.ofText css).uncommented) ∧
      byteLength ((Sheet.ofText css).edited inventory) = byteLength css := by
  have hrebuilt := rebuilt_plan css inventory
  have hlength := hrebuilt.byteLength_eq (keepsLength_plan css inventory)
  rw [edited_ofText]
  constructor
  · rw [← chars_settledCells]
    refine Outline.sublist_rewritten ?_
    intro leaf _
    rw [chars_map_codeCell]
    exact leaf.ungapped_outputText_sublist inventory
  · rw [hlength, Masking.byteLength_uncommented]

theorem RespacedOnce.byteLength_le {text text' : Text}
    (h : RespacedOnce text text') : byteLength text' ≤ byteLength text := by
  obtain ⟨front, old, new, back, hchange, rfl, rfl⟩ := h
  have hspace : ' '.utf8Size = 1 := rfl
  have hnew : byteLength new ≤ byteLength old := by
    cases hchange with
    | @gap c hc =>
        have hpos := c.utf8Size_pos
        simp only [byteLength_cons, byteLength_nil, hspace]
        omega
    | behind hc =>
        simp
    | before hc =>
        simp
  simp only [byteLength_append]
  omega

/-- Changes of spacing make no text longer. -/
theorem Respaced.byteLength_le {text text' : Text} (h : Respaced text text') :
    byteLength text' ≤ byteLength text := by
  induction h with
  | refl =>
      exact Nat.le_refl _
  | tail _ honce ih =>
      exact Nat.le_trans honce.byteLength_le ih

namespace EmptyRules

theorem pass_sublist (text : Text) : (pass text).Sublist text := by
  have h := @Outline.sublist_rewritten Leaf.swept (fun _ => true)
    (annotate .plain text).2 ?_
  · rw [chars_annotate, ← pass_eq] at h
    simpa using h
  · intro leaf _
    rw [Leaf.swept]
    split
    · exact List.nil_sublist _
    · exact List.Sublist.refl _

/-- Sweeping takes characters away. -/
theorem sweep_sublist (text : Text) : (sweep text).text.Sublist text := by
  refine sweep_preserves (P := fun swept => swept.Sublist text) ?_
    (List.Sublist.refl _)
  intro swept hswept
  exact (pass_sublist swept).trans hswept

end EmptyRules

end Steps

/--
Without spaces and line breaks, the characters of a pruned stylesheet are
characters of the stylesheet in the same order; and it has no more bytes.
-/
theorem ungapped_usedRules_sublist (css page : Text) :
    (ungapped (usedRules css page)).Sublist (ungapped css) ∧
      byteLength (usedRules css page) ≤ byteLength css := by
  obtain ⟨hedited, hlength⟩ := edited_sublist css (Inventory.ofPage page)
  have hrespaced := respaced_normalSpacing
    ((Sheet.ofText css).edited (Inventory.ofPage page))
  have hswept : (usedRules css page).Sublist
      (normalSpacing ((Sheet.ofText css).edited (Inventory.ofPage page))) := by
    rw [usedRules_eq]
    exact (trimSpaces_part _).sublist.trans (EmptyRules.sweep_sublist _)
  constructor
  · have hungapped := ungapped_sublist hswept
    rw [hrespaced.ungapped_eq] at hungapped
    exact hungapped.trans (hedited.trans (ungapped_uncommented_sublist css))
  · calc
      byteLength (usedRules css page)
        ≤ byteLength (normalSpacing
            ((Sheet.ofText css).edited (Inventory.ofPage page))) :=
          byteLength_le_of_sublist hswept
      _ ≤ byteLength ((Sheet.ofText css).edited (Inventory.ofPage page)) :=
          hrespaced.byteLength_le
      _ = byteLength css := hlength

end StylesheetPruning
