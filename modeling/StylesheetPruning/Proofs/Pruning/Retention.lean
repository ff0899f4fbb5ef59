import StylesheetPruning.Proofs.Pruning.FixedPoint

/-!
# Stylesheets that are kept

A stylesheet that is read calmly and has no empty rules comes out of pruning
as it went in, up to spaces and line breaks, exactly when every decision is to
keep.

**Argument.** Every other decision takes weight away, and nothing gives it
back. Without edits only the spacing changes. Spacing keeps the gist, and the
gist says which leaves are solid, so there is nothing to sweep out.

**Results.**
* `ungapped_usedRules_eq_iff`: what is kept is what has no dead selectors.
-/

namespace StylesheetPruning

namespace Outline

theorem mem_passages_of_mem_leavesFrom
    {leaf : Leaf} {offset : Nat} {passages : List Passage}
    (h : leaf ∈ leavesFrom offset passages) :
    .leaf leaf.list leaf.inner ∈ passages := by
  induction passages generalizing offset with
  | nil =>
      cases h
  | cons passage others ih =>
      cases passage with
      | run body fence =>
          exact List.mem_cons_of_mem _ (ih h)
      | leaf list inner =>
          rcases List.mem_cons.mp h with rfl | h
          · exact List.mem_cons_self
          · exact List.mem_cons_of_mem _ (ih h)

theorem exists_mem_leavesFrom
    {list inner : List Cell} {passages : List Passage}
    (h : .leaf list inner ∈ passages) (offset : Nat) :
    ∃ leaf ∈ leavesFrom offset passages, leaf.inner = inner := by
  induction passages generalizing offset with
  | nil =>
      cases h
  | cons passage others ih =>
      rcases List.mem_cons.mp h with rfl | hothers
      · exact ⟨_, List.mem_cons_self, rfl⟩
      · cases passage with
        | run body fence =>
            exact ih hothers _
        | leaf list' inner' =>
            obtain ⟨leaf, hleaf, hinner⟩ := ih hothers _
            exact ⟨leaf, List.mem_cons_of_mem _ hleaf, hinner⟩

/-- Cells with the same gist have leaves with the same gist. -/
theorem exists_leaf_of_gist_eq
    {cells cells' : List Cell}
    (h : StylesheetPruning.gist cells' = StylesheetPruning.gist cells)
    {leaf' : Leaf} (hleaf : leaf' ∈ (ofCells cells').leaves) :
    ∃ leaf ∈ (ofCells cells).leaves,
      StylesheetPruning.gist leaf.inner =
        StylesheetPruning.gist leaf'.inner := by
  have houtline : (ofCells cells').gist = (ofCells cells).gist := by
    rw [← ofCells_gist, ← ofCells_gist, h]
  have hpassages : (ofCells cells').passages.map Passage.gist =
      (ofCells cells).passages.map Passage.gist :=
    congrArg Outline.passages houtline
  have hmem : Passage.gist (.leaf leaf'.list leaf'.inner) ∈
      (ofCells cells).passages.map Passage.gist := by
    rw [← hpassages]
    exact List.mem_map_of_mem (mem_passages_of_mem_leavesFrom hleaf)
  obtain ⟨passage, hpassage, hgist⟩ := List.mem_map.mp hmem
  cases passage with
  | run body fence =>
      cases hgist
  | leaf list inner =>
      obtain ⟨leaf, hleaf, rfl⟩ := exists_mem_leavesFrom hpassage 0
      simp only [Passage.gist, Passage.leaf.injEq] at hgist
      exact ⟨leaf, hleaf, hgist.2⟩

end Outline

section Retention

/-- No leaf is blank up to filler. -/
def Solid (cells : List Cell) : Prop :=
  ∀ leaf ∈ (Outline.ofCells cells).leaves, ¬ Hollow leaf.inner

theorem Solid.of_gist_eq
    {cells cells' : List Cell} (hsolid : Solid cells)
    (h : gist cells' = gist cells) : Solid cells' := by
  intro leaf' hleaf'
  obtain ⟨leaf, hleaf, hinner⟩ := Outline.exists_leaf_of_gist_eq h hleaf'
  rw [← hollow_gist, ← hinner, hollow_gist]
  exact hsolid leaf hleaf

/-- Solid cells have no empty rules. -/
theorem Solid.spans_eq_nil {cells : List Cell} (h : Solid cells) :
    EmptyRules.spans (cells.flatMap Cell.masked) = [] := by
  rw [Outline.spans_masked, List.map_eq_nil_iff, List.filter_eq_nil_iff]
  intro leaf hleaf hempty
  exact h leaf hleaf (Leaf.hollow_of_isEmpty hempty)

variable {cells : List Cell} {state : Lexing}

/-- Without edits only the spacing changes. -/
theorem ungapped_usedRules_of_plan_eq_nil
    (hread : Reads calmly .plain cells none state) (hsolid : Solid cells)
    {page : Text}
    (hplan : (Sheet.ofText (chars cells)).plan (Inventory.ofPage page) = []) :
    ungapped (usedRules (chars cells) page) = ungapped (chars cells) := by
  obtain ⟨cells', hcells', hgist, hread'⟩ :=
    exists_reads_respaced (respaced_normalSpacing (chars cells)) rfl hread
  have hspans : EmptyRules.spans
      (Masking.ofText (normalSpacing (chars cells))).masked = [] := by
    rw [← hcells', masked_of_reads hread']
    exact (hsolid.of_gist_eq hgist).spans_eq_nil
  rw [usedRules_eq, hplan, Edit.applyAll_nil, uncommented_of_reads hread,
    EmptyRules.sweep_eq_self hspans, ungapped_trimSpaces,
    (respaced_normalSpacing _).ungapped_eq]

/--
A stylesheet without comments and empty rules is kept, up to spaces and line
breaks, exactly when no selector of it is dead.
-/
theorem ungapped_usedRules_eq_iff
    (hread : Reads calmly .plain cells none state) (hsolid : Solid cells)
    (hstrings : UnbrokenStrings (chars cells)) (page : Text) :
    ungapped (usedRules (chars cells) page) = ungapped (chars cells) ↔
      ∀ decision ∈ (Sheet.ofText (chars cells)).decisions
        (Inventory.ofPage page), decision.verdict = .keep := by
  constructor
  · intro heq
    obtain ⟨hedits, hkeep⟩ :=
      weight_applyAll_plan hstrings (Inventory.ofPage page)
    have hused := weight_usedRules_le (chars cells) page
    have hweight : weight (usedRules (chars cells) page) =
        weight (chars cells) := by
      rw [weight, heq, ← weight]
    rw [uncommented_of_reads hread] at hedits hkeep
    rw [uncommented_of_reads hread] at hused
    exact hkeep (by omega)
  · intro hkeep
    exact ungapped_usedRules_of_plan_eq_nil hread hsolid (plan_eq_nil hkeep)

end Retention

end StylesheetPruning
