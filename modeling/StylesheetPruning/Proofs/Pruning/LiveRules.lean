import StylesheetPruning.Proofs.Pruning.Editing

/-!
# Live rules survive

A leaf that is not dropped and whose block is not blank says the same in the
pruned stylesheet: its live selectors and its declarations are those of a leaf
there, up to spaces and line breaks, and such leaves keep their order.

**Argument.** A stylesheet without broken strings is read calmly. The edits
rewrite leaves into blocks that yield what the leaf says, and normal spacing,
sweeping and trimming keep a calm reading and every solid leaf.

**Results.**
* `live_statements_survive`: the live leaves are in the pruned stylesheet.
-/

namespace StylesheetPruning

/-- What the leaves of a stylesheet say. -/
def Masking.statements (masking : Masking) : List Statement :=
  (Rule.leavesIn masking.masked).map
    (fun leaf =>
      (ungapped (slice masking.uncommented leaf.selectorList),
        ungapped (slice masking.uncommented leaf.declarations)))

namespace Decision

/-- The selector list of a leaf without dead members and their commas. -/
def liveList (masking : Masking) (decision : Decision) : Text :=
  match decision.verdict with
  | .keep => slice masking.uncommented decision.leaf.selectorList
  | .reduce _ | .drop =>
      List.intercalate [','] (Judgement.liveSources decision.judgements)

/-- Whether only whitespace stands between the braces of a leaf. -/
def isBlank (masking : Masking) (decision : Decision) : Bool :=
  (slice masking.masked
    ⟨decision.leaf.brace + 1, decision.leaf.stop - 1⟩).all isSpace

end Decision

/-- What the leaves say that a page leaves alive and that are not blank. -/
def Sheet.liveStatements (sheet : Sheet) (inventory : Inventory) :
    List Statement :=
  ((sheet.decisions inventory).filter
      (fun decision => !decision.drops && !decision.isBlank sheet.masking)).map
    (fun decision =>
      (ungapped (decision.liveList sheet.masking),
        ungapped
          (slice sheet.masking.uncommented decision.leaf.declarations)))

section Stages

/-- A text that is read calmly and has some solid leaves, in order. -/
def Bears (statements : List Statement) (text : Text) : Prop :=
  ∃ cells state, chars cells = text ∧ Reads calmly .plain cells none state ∧
    statements.Sublist ((solidLeaves cells).map printed)

variable {statements : List Statement} {text : Text}

theorem Bears.normalSpacing (h : Bears statements text) :
    Bears statements (normalSpacing text) := by
  obtain ⟨cells, state, hcells, hread, hstatements⟩ := h
  obtain ⟨cells', hcells', hgist, hread'⟩ :=
    exists_reads_respaced (respaced_normalSpacing text) hcells hread
  refine ⟨cells', state, hcells', hread', ?_⟩
  rw [solidLeaves, hgist]
  exact hstatements

theorem Bears.pass (h : Bears statements text) :
    Bears statements (EmptyRules.pass text) := by
  obtain ⟨cells, state, rfl, hread, hstatements⟩ := h
  obtain ⟨cells', hcells', hread', hsolid⟩ := EmptyRules.exists_reads_pass hread
  exact ⟨cells', state, hcells', hread', hstatements.trans (hsolid.map printed)⟩

theorem Bears.trimSpaces (h : Bears statements text) :
    Bears statements (trimSpaces text) := by
  obtain ⟨cells, state, rfl, hread, hstatements⟩ := h
  obtain ⟨cells', state', hcells', hgist, hread'⟩ :=
    exists_reads_trimSpaces hread
  refine ⟨cells', state', hcells', hread', ?_⟩
  rw [solidLeaves, hgist]
  exact hstatements

/-- Every solid leaf of a text is among its leaves. -/
theorem Bears.sublist_statements (h : Bears statements text) :
    statements.Sublist (Masking.ofText text).statements := by
  obtain ⟨cells, state, rfl, hread, hstatements⟩ := h
  refine hstatements.trans ?_
  rw [Masking.statements, masked_of_reads hread, uncommented_of_reads hread,
    Outline.leavesIn_masked, List.map_map, Outline.solidLeaves_eq_flatMap,
    List.map_flatMap]
  have hmap : (Outline.ofCells cells).leaves.map
      ((fun leaf : Rule =>
        (ungapped (slice (chars cells) leaf.selectorList),
          ungapped (slice (chars cells) leaf.declarations))) ∘ Leaf.rule) =
      (Outline.ofCells cells).leaves.flatMap
        (fun leaf => [(ungapped (chars leaf.list),
          ungapped (chars (blockCells leaf.inner)))]) := by
    rw [← List.map_eq_flatMap]
    refine List.map_congr_left ?_
    intro leaf hleaf
    simp only [Function.comp_apply, chars_eq_flatMap]
    rw [Leaf.slice_selectorList byteLength_char hleaf,
      Leaf.slice_declarations byteLength_char hleaf]
  rw [hmap]
  induction (Outline.ofCells cells).leaves with
  | nil =>
      exact List.Sublist.refl _
  | cons leaf leaves ih =>
      rw [List.flatMap_cons, List.flatMap_cons]
      refine List.Sublist.append ?_ ih
      split
      · exact List.nil_sublist _
      · simp only [List.map_singleton, printed_gist, List.Sublist.refl]

/-- The edits of a stylesheet without broken strings keep what is alive. -/
theorem bears_applyAll
    {css : Text} (hstrings : UnbrokenStrings css) (inventory : Inventory) :
    Bears
      ((Outline.ofCells (settledCells css)).leaves.flatMap
        (Leaf.statements inventory))
      (Edit.applyAll (Masking.ofText css).uncommented
        ((Sheet.ofText css).plan inventory)) := by
  obtain ⟨image, found, state, hedited, hread⟩ :=
    exists_images hstrings inventory
  rw [applyAll_plan hedited]
  refine ⟨_, state, rfl, hread, ?_⟩
  have hsolid := Outline.solidLeaves_rewritten
    (fun leaf hleaf => (hedited leaf hleaf).yields)
  refine List.Sublist.trans ?_ (hsolid.map printed)
  rw [List.map_flatMap]
  have hstatements :
      ∀ leaf ∈ (Outline.ofCells (settledCells css)).leaves,
        (leaf.statements inventory).Sublist ((found leaf).map printed) :=
    fun leaf hleaf => (hedited leaf hleaf).statements
  generalize (Outline.ofCells (settledCells css)).leaves = leaves
    at hstatements ⊢
  induction leaves with
  | nil =>
      exact List.Sublist.refl _
  | cons leaf leaves ih =>
      rw [List.flatMap_cons, List.flatMap_cons]
      exact (hstatements leaf (by simp)).append
        (ih (fun l hl => hstatements l (List.mem_cons_of_mem leaf hl)))

end Stages

section Survival

/-- What the live leaves say, leaf by leaf. -/
theorem liveStatements_eq_flatMap (css : Text) (inventory : Inventory) :
    (Sheet.ofText css).liveStatements inventory =
      (Outline.ofCells (settledCells css)).leaves.flatMap
        (Leaf.statements inventory) := by
  have hleaf : ∀ leaf ∈ (Outline.ofCells (settledCells css)).leaves,
      (leaf.decision inventory).isBlank (Masking.ofText css) = leaf.isEmpty ∧
      (leaf.decision inventory).liveList (Masking.ofText css) =
        leaf.liveList inventory ∧
      slice (Masking.ofText css).uncommented leaf.rule.declarations =
        chars (blockCells leaf.inner) := by
    intro leaf hleaf
    have hinner := Leaf.slice_inner Cell.byteLength_masked hleaf
    have hlist := Leaf.slice_selectorList byteLength_char hleaf
    have hdeclarations := Leaf.slice_declarations byteLength_char hleaf
    rw [flatMap_masked_settledCells] at hinner
    rw [← chars_eq_flatMap, ← chars_eq_flatMap, chars_settledCells]
      at hlist hdeclarations
    refine ⟨?_, ?_, hdeclarations⟩
    · exact congrArg (fun text => text.all isSpace) hinner
    · rw [Decision.liveList, Leaf.liveList]
      cases (leaf.decision inventory).verdict with
      | keep =>
          exact hlist
      | reduce dead =>
          rfl
      | drop =>
          rfl
  rw [Sheet.liveStatements, decisions_eq_map]
  generalize (Outline.ofCells (settledCells css)).leaves = leaves at hleaf ⊢
  induction leaves with
  | nil =>
      rfl
  | cons leaf leaves ih =>
      obtain ⟨⟨hblank, hlist, hdeclarations⟩, hothers⟩ :=
        List.forall_mem_cons.mp hleaf
      have hfirst : (Sheet.ofText css).masking = Masking.ofText css := rfl
      rw [hfirst] at ih ⊢
      rw [List.flatMap_cons, ← ih hothers, List.map_cons, List.filter_cons,
        hblank, Leaf.statements]
      cases (leaf.decision inventory).drops with
      | true =>
          rfl
      | false =>
          cases leaf.isEmpty with
          | true =>
              rfl
          | false =>
              rw [← hdeclarations, ← hlist]
              rfl

/--
The live leaves of a stylesheet without broken strings are in the pruned
stylesheet, in the same order.
-/
theorem live_statements_survive
    {css : Text} (h : UnbrokenStrings css) (page : Text) :
    ((Sheet.ofText css).liveStatements (Inventory.ofPage page)).Sublist
      (Masking.ofText (usedRules css page)).statements := by
  have hedited := bears_applyAll h (Inventory.ofPage page)
  have hswept : Bears _ (EmptyRules.sweep (normalSpacing _)).text :=
    EmptyRules.sweep_preserves (fun _ htext => Bears.pass htext)
      hedited.normalSpacing
  rw [liveStatements_eq_flatMap, usedRules_eq]
  exact hswept.trimSpaces.sublist_statements

/-- One of two members of a list is live, behind a comment. -/
theorem live_statements_survive_card :
    UnbrokenStrings "/* x */ .card, .old { color : red }".toList ∧
    (Sheet.ofText "/* x */ .card, .old { color : red }".toList).liveStatements
        (Inventory.ofPage "<p class=card>".toList) =
      [(".card".toList, "{color:red}".toList)] ∧
    ((Sheet.ofText "/* x */ .card, .old { color : red }".toList).liveStatements
        (Inventory.ofPage "<p class=card>".toList)).Sublist
      (Masking.ofText (usedRules "/* x */ .card, .old { color : red }".toList
        "<p class=card>".toList)).statements :=
  ⟨by decide, by decide +kernel,
    live_statements_survive (by decide) "<p class=card>".toList⟩

end Survival

end StylesheetPruning
