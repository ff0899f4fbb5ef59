import StylesheetPruning.Proofs.Edit.Acceptance
import StylesheetPruning.Proofs.Pruning.Decisions
import StylesheetPruning.Proofs.Pruning.Layout
import StylesheetPruning.Proofs.Stylesheet.Sweeping

/-!
# What is planned for a stylesheet

The edits of a stylesheet are one pass over its leaves, however its strings
end and whatever is left open. An edit covers the selector list of a leaf or
the whole leaf, and keeps its length.

**Results.**
* `rebuilt_plan`: the edits of a stylesheet are one pass over it.
* `plan_inPlace`: they move nothing outside their spans, and in a list that is
  kept in part no live selector moves.
-/

namespace StylesheetPruning

theorem map_selector_judge (inventory : Inventory) (selectors : List Selector) :
    (Judgement.judge inventory selectors).map Judgement.selector = selectors := by
  rw [Judgement.judge, List.map_map]
  exact List.map_id selectors

/-- A leaf that keeps some of its selectors loses others. -/
theorem Decision.exists_dead {decision : Decision}
    (h : decision.reduces = true) : ∃ dead, decision.verdict = .reduce dead := by
  cases hverdict : decision.verdict with
  | keep =>
      simp [reduces, hverdict] at h
  | reduce dead =>
      exact ⟨dead, rfl⟩
  | drop =>
      simp [reduces, hverdict] at h

namespace Leaf

variable {inventory : Inventory} {leaf : Leaf}

/-- The list of a leaf that is not kept as it is has members. -/
theorem not_blank
    (hverdict : (leaf.decision inventory).verdict ≠ .keep) :
    (leaf.list.flatMap Cell.masked).all isSpace = false :=
  not_blank_of_judge_ne_nil (judge_ne_nil_of_verdict hverdict)

theorem chars_list_ne_nil
    (hverdict : (leaf.decision inventory).verdict ≠ .keep) :
    chars leaf.list ≠ [] := by
  intro hnil
  have hblank := not_blank hverdict
  rw [List.map_eq_nil_iff.mp hnil] at hblank
  cases hblank

theorem ne_keep_of_reduce
    {dead : List Nat}
    (hverdict : (leaf.decision inventory).verdict = .reduce dead) :
    (leaf.decision inventory).verdict ≠ .keep := by
  rw [hverdict]
  simp

/-- The edit of a leaf that is kept in part. -/
theorem edit?_of_reduce
    {dead : List Nat}
    (hverdict : (leaf.decision inventory).verdict = .reduce dead) :
    (leaf.decision inventory).edit? =
      some ⟨leaf.rule.selectorList,
        Judgement.keptText (leaf.decision inventory).judgements⟩ := by
  rw [Decision.edit?, hverdict]
  exact keptEdit?_judge (not_blank (ne_keep_of_reduce hverdict)) inventory
    leaf.start

/-- The edit of a leaf that is dropped. -/
theorem edit?_of_drop
    (hverdict : (leaf.decision inventory).verdict = .drop) :
    (leaf.decision inventory).edit? = some leaf.rule.emptied := by
  rw [Decision.edit?, hverdict]
  rfl

theorem byteLength_keptText
    (hverdict : (leaf.decision inventory).verdict ≠ .keep) :
    byteLength (Judgement.keptText (leaf.decision inventory).judgements) =
      width leaf.list := by
  rw [Judgement.byteLength_keptText]
  exact congrArg byteLength
    (intercalate_sources (not_blank hverdict) inventory leaf.start)

theorem byteLength_emptied (leaf : Leaf) :
    byteLength leaf.rule.emptied.replacement = width leaf.cells := by
  have hwidth := leaf.width_cells
  have hopen : '{'.utf8Size = 1 := rfl
  have hclose : '}'.utf8Size = 1 := rfl
  simp only [Rule.emptied, byteLength_cons, byteLength_spaces, hopen, hclose,
    Rule.span, Span.length, rule]
  omega

/-- The text that the edit of a leaf leaves. -/
def outputText (inventory : Inventory) (leaf : Leaf) : Text :=
  match (leaf.decision inventory).verdict with
  | .keep => chars leaf.cells
  | .reduce _ =>
      Judgement.keptText (leaf.decision inventory).judgements ++
        chars (blockCells leaf.inner)
  | .drop => leaf.rule.emptied.replacement

/-- The edit of a leaf makes its new text out of its old one. -/
theorem rebuilt_outputText (inventory : Inventory) (leaf : Leaf) :
    Rebuilt leaf.start (chars leaf.cells)
      (leaf.decision inventory).edit?.toList (leaf.outputText inventory) := by
  cases hverdict : (leaf.decision inventory).verdict with
  | keep =>
      rw [Decision.edit?, outputText, hverdict]
      exact .done _ _
  | reduce dead =>
      have hlist : chars leaf.list ≠ [] :=
        chars_list_ne_nil (ne_keep_of_reduce hverdict)
      have hsingle := Rebuilt.single leaf.start
        (Judgement.keptText (leaf.decision inventory).judgements) hlist
      have hall := hsingle.append (.done _ (chars (blockCells leaf.inner)))
      rw [edit?_of_reduce hverdict, outputText, hverdict, cells, chars_append]
      exact hall
  | drop =>
      have hcells : chars leaf.cells ≠ [] := by
        simp [chars, leaf.cells_ne_nil]
      have hsingle := Rebuilt.single leaf.start leaf.rule.emptied.replacement
        hcells
      rw [edit?_of_drop hverdict, outputText, hverdict]
      rw [← span_rule] at hsingle
      exact hsingle

/-- The edit of a leaf keeps the length of what it replaces. -/
theorem keepsLength_of_edit? :
    ∀ e ∈ (leaf.decision inventory).edit?, e.KeepsLength := by
  intro e he
  cases hverdict : (leaf.decision inventory).verdict with
  | keep =>
      rw [Decision.edit?, hverdict] at he
      cases he
  | reduce dead =>
      rw [edit?_of_reduce hverdict, Option.mem_some_iff] at he
      subst he
      have hkept := byteLength_keptText (ne_keep_of_reduce hverdict)
      rw [Edit.KeepsLength, hkept]
      simp [Rule.selectorList, Span.length, rule]
  | drop =>
      rw [edit?_of_drop hverdict, Option.mem_some_iff] at he
      subst he
      rw [Edit.KeepsLength, byteLength_emptied]
      show _ = leaf.rule.span.length
      rw [span_rule]
      simp [Span.length, width]

/-- The members of the list of a leaf follow each other from its start. -/
theorem consecutive_judgements (inventory : Inventory) (leaf : Leaf) :
    Consecutive leaf.start
      ((leaf.decision inventory).judgements.map Judgement.selector) := by
  rw [decision, map_selector_judge]
  exact consecutive_readList leaf.list leaf.start

end Leaf

section Plan

/-- The edits of a stylesheet are one pass over it. -/
theorem rebuilt_plan (css : Text) (inventory : Inventory) :
    Rebuilt 0 (Masking.ofText css).uncommented
      ((Sheet.ofText css).plan inventory)
      (chars (Outline.rewritten
        (fun leaf => (leaf.outputText inventory).map codeCell)
        (Outline.ofCells (settledCells css)))) := by
  rw [plan_eq_filterMap, ← chars_settledCells]
  refine Outline.rebuilt_rewritten ?_
  intro leaf _
  rw [chars_map_codeCell]
  exact leaf.rebuilt_outputText inventory

theorem keepsLength_plan (css : Text) (inventory : Inventory) :
    ∀ e ∈ (Sheet.ofText css).plan inventory, e.KeepsLength := by
  intro e he
  rw [plan_eq_filterMap] at he
  obtain ⟨leaf, -, hedit⟩ := List.mem_filterMap.mp he
  exact Leaf.keepsLength_of_edit? e hedit

/-- The uncommented stylesheet under the edits that a page asks for. -/
def Sheet.edited (sheet : Sheet) (inventory : Inventory) : Text :=
  Edit.applyAll sheet.masking.uncommented (sheet.plan inventory)

/-- What is edited is the stylesheet with other leaves. -/
theorem edited_ofText (css : Text) (inventory : Inventory) :
    (Sheet.ofText css).edited inventory =
      chars (Outline.rewritten
        (fun leaf => (leaf.outputText inventory).map codeCell)
        (Outline.ofCells (settledCells css))) :=
  Edit.applyAll_of_rebuilt (rebuilt_plan css inventory)

/-- The counters of a report, stage by stage. -/
theorem report_outcomeOf (css page : Text) :
    (outcomeOf css page).report =
      let inventory := Inventory.ofPage page
      let decisions := (Sheet.ofText css).decisions inventory
      { analyzed := decisions.length
        dropped := decisions.countP Decision.drops
        reduced := decisions.countP Decision.reduces
        selectors := (decisions.map Decision.deadCount).sum
        comments := (Masking.ofText css).comments.length
        emptied := (EmptyRules.sweep
          (normalSpacing ((Sheet.ofText css).edited inventory))).removed } := by
  simp only [outcomeOf, Sheet.pruneBy, tidy, Sheet.edited, Sheet.plan,
    Sheet.ofText, List.sum, List.foldr_map]

/--
The edits of a stylesheet are applied in place. In a list that is kept in
part, every live selector stands where it stood, and elsewhere in the list
there are only spaces and the commas between live selectors.
-/
theorem plan_inPlace (css : Text) (inventory : Inventory) :
    InPlace (Masking.ofText css).uncommented
        ((Sheet.ofText css).plan inventory) ∧
      ∀ decision ∈ (Sheet.ofText css).decisions inventory,
        decision.reduces = true →
        (∀ selector ∈ Judgement.liveSelectors decision.judgements,
          slice? ((Sheet.ofText css).edited inventory) selector.span =
            some selector.source) ∧
        ∃ list,
          slice? ((Sheet.ofText css).edited inventory)
            decision.leaf.selectorList = some list ∧
          Laid decision.leaf.start
            (Judgement.liveSelectors decision.judgements) list := by
  have hinPlace : InPlace (Masking.ofText css).uncommented
      ((Sheet.ofText css).plan inventory) :=
    .of_rebuilt (rebuilt_plan css inventory) (keepsLength_plan css inventory)
  refine ⟨hinPlace, ?_⟩
  intro decision hdecision hreduces
  have hplan : ∀ e ∈ decision.edit?, e ∈ (Sheet.ofText css).plan inventory :=
    fun e he => List.mem_filterMap.mpr ⟨decision, hdecision, he⟩
  rw [decisions_eq_map] at hdecision
  obtain ⟨leaf, -, rfl⟩ := List.mem_map.mp hdecision
  obtain ⟨dead, hverdict⟩ := Decision.exists_dead hreduces
  have hwritten :=
    hinPlace.written _ (hplan _ (Leaf.edit?_of_reduce hverdict))
  have hconsecutive := leaf.consecutive_judgements inventory
  have hlaid := Judgement.laid_keptText hconsecutive
  refine ⟨hlaid.slice?_span hwritten ?_, _, hwritten, hlaid⟩
  intro selector hselector
  obtain ⟨judgement, hjudgement, rfl⟩ := List.mem_map.mp hselector
  exact hconsecutive.stop_span _
    (List.mem_map_of_mem (List.mem_filter.mp hjudgement).1)

/-- The middle one of three members is dead, in a block that is never closed. -/
theorem plan_inPlace_unclosed :
    (Sheet.ofText "é\x7b.a, .b ,.c\x7bx:1\x7d".toList).plan
        (Inventory.ofPage "<p class='a c'>".toList) =
      [⟨⟨3, 13⟩, ".a,     .c".toList⟩] ∧
    ∃ decision ∈ (Sheet.ofText "é\x7b.a, .b ,.c\x7bx:1\x7d".toList).decisions
        (Inventory.ofPage "<p class='a c'>".toList),
      decision.reduces = true ∧
      ∃ list,
        slice?
          ((Sheet.ofText "é\x7b.a, .b ,.c\x7bx:1\x7d".toList).edited
            (Inventory.ofPage "<p class='a c'>".toList))
          decision.leaf.selectorList = some list ∧
        Laid decision.leaf.start
          (Judgement.liveSelectors decision.judgements) list := by
  have hplan : (Sheet.ofText "é\x7b.a, .b ,.c\x7bx:1\x7d".toList).plan
      (Inventory.ofPage "<p class='a c'>".toList) =
        [⟨⟨3, 13⟩, ".a,     .c".toList⟩] := by
    decide +kernel
  have hlength : 0 < ((Sheet.ofText
      "é\x7b.a, .b ,.c\x7bx:1\x7d".toList).decisions
        (Inventory.ofPage "<p class='a c'>".toList)).length := by
    decide +kernel
  have hreduces : ∀ decision ∈ (Sheet.ofText
      "é\x7b.a, .b ,.c\x7bx:1\x7d".toList).decisions
        (Inventory.ofPage "<p class='a c'>".toList),
      decision.reduces = true := by
    decide +kernel
  obtain ⟨decision, hmem⟩ := List.exists_mem_of_length_pos hlength
  have hlaid := (plan_inPlace _ _).2 decision hmem (hreduces decision hmem)
  exact ⟨hplan, decision, hmem, hreduces decision hmem, hlaid.2⟩

end Plan

end StylesheetPruning
