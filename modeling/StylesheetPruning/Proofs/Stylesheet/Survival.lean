import StylesheetPruning.Proofs.Edit.Respacing
import StylesheetPruning.Proofs.Stylesheet.Rewriting

/-!
# Leaves that survive

What a leaf says does not depend on its spaces and line breaks, so leaves are
compared without them. A leaf is solid when its block holds more than
whitespace.

**Yields.** Cells yield leaves when these are among the solid leaves of every
stylesheet that begins with the cells, in front of the solid leaves of what
follows.

**Results.**
* `ofCells_gist`: leaving out gaps changes nothing else in an outline.
* `yields_run`, `yields_leaf`: what passages yield.
* `solidLeaves_rewritten`: so what the new leaves of a rewritten stylesheet
  yield is among its solid leaves.
-/

namespace StylesheetPruning

/-- Cells without spaces and line breaks. -/
def gist (cells : List Cell) : List Cell :=
  cells.filter (fun cell => !isGap cell.char)

@[simp] theorem gist_nil : gist [] = [] := rfl

@[simp] theorem gist_append (cells cells' : List Cell) :
    gist (cells ++ cells') = gist cells ++ gist cells' :=
  List.filter_append _ _

theorem gist_cons (cell : Cell) (rest : List Cell) :
    gist (cell :: rest) =
      if isGap cell.char then gist rest else cell :: gist rest := by
  by_cases h : isGap cell.char <;> simp [gist, h]

theorem gist_cons_codeCell {c : Char} (h : isGap c = false)
    (rest : List Cell) : gist (codeCell c :: rest) = codeCell c :: gist rest := by
  simp [gist_cons, codeCell, h]

@[simp] theorem gist_spaces (n : Nat) :
    gist ((spaces n).map codeCell) = [] := by
  simp [gist, spaces, codeCell, isGap]

theorem chars_gist (cells : List Cell) :
    chars (gist cells) = ungapped (chars cells) := by
  simp [chars, gist, ungapped, List.filter_map]
  rfl

instance (cells : List Cell) : Decidable (Hollow cells) :=
  inferInstanceAs
    (Decidable (∀ cell ∈ cells, cell.role = .code → isSpace cell.char = true))

theorem isSpace_of_isGap {c : Char} (h : isGap c = true) :
    isSpace c = true := by
  simp only [isGap, isLineBreak, Bool.or_eq_true, decide_eq_true_eq] at h
  rcases h with rfl | rfl | rfl <;> rfl

theorem hollow_gist (cells : List Cell) : Hollow (gist cells) ↔ Hollow cells := by
  constructor
  · intro h cell hcell hrole
    by_cases hgap : isGap cell.char = true
    · exact isSpace_of_isGap hgap
    · exact h cell (List.mem_filter.mpr ⟨hcell, by simpa using hgap⟩) hrole
  · intro h cell hcell hrole
    exact h cell (List.mem_filter.mp hcell).1 hrole

section Gists

/-- A passage without spaces and line breaks. -/
def Passage.gist : Passage → Passage
  | run body fence => run (StylesheetPruning.gist body) fence
  | leaf list inner =>
      leaf (StylesheetPruning.gist list) (StylesheetPruning.gist inner)

namespace Outline

/-- An outline without spaces and line breaks. -/
def gist (outline : Outline) : Outline :=
  ⟨outline.passages.map Passage.gist, StylesheetPruning.gist outline.rest⟩

theorem closeBlock_map_gist (passages : List Passage) :
    closeBlock (passages.map Passage.gist) =
      (closeBlock passages).map
        (fun (inner, after) =>
          (StylesheetPruning.gist inner, after.map Passage.gist)) := by
  induction passages with
  | nil =>
      rfl
  | cons passage others ih =>
      cases passage with
      | leaf list inner =>
          rfl
      | run body fence =>
          simp only [List.map_cons, Passage.gist, closeBlock]
          split
          · rfl
          · split
            · rw [ih, Option.map_map, Option.map_map]
              congr 1
              funext closed
              obtain ⟨inner, after⟩ := closed
              simp [gist_cons_codeCell (c := ';') rfl]
            · rfl

theorem consFence_map_gist (c : Char) (passages : List Passage) :
    consFence c (passages.map Passage.gist) =
      (consFence c passages).map Passage.gist := by
  simp only [consFence, closeBlock_map_gist]
  split
  · cases closeBlock passages with
    | none =>
        rfl
    | some closed =>
        rfl
  · rfl

theorem cons_gist {cell : Cell} (h : isGap cell.char = false)
    (outline : Outline) :
    cons cell outline.gist = (cons cell outline).gist := by
  obtain ⟨passages, rest⟩ := outline
  simp only [cons, gist]
  split
  · simp [consFence_map_gist]
  · cases passages with
    | nil =>
        simp [gist_cons, h]
    | cons passage others =>
        cases passage <;> simp [Passage.gist, gist_cons, h]

theorem gist_cons_gap {cell : Cell} (h : isGap cell.char = true)
    (outline : Outline) : (cons cell outline).gist = outline.gist := by
  have hfence : cell.isFence = false := by
    cases hcell : cell.isFence with
    | false =>
        rfl
    | true =>
        rcases cell.isFence_cases hcell with rfl | rfl | rfl <;> cases h
  obtain ⟨passages, rest⟩ := outline
  simp only [cons, gist, hfence, Bool.false_eq_true, if_false]
  cases passages with
  | nil =>
      simp [gist_cons, h]
  | cons passage others =>
      cases passage <;> simp [Passage.gist, gist_cons, h]

/-- Leaving out gaps changes nothing else in an outline. -/
theorem ofCells_gist (cells : List Cell) :
    ofCells (StylesheetPruning.gist cells) = (ofCells cells).gist := by
  induction cells with
  | nil =>
      rfl
  | cons cell rest ih =>
      rw [gist_cons]
      split
      · next hgap =>
          rw [ih, ofCells_cons, gist_cons_gap hgap]
      · next hgap =>
          have hgap' : isGap cell.char = false := by
            simpa using hgap
          rw [ofCells_cons, ofCells_cons, ih, cons_gist hgap']

end Outline

end Gists

section Solid

/-- The selector list and the block of a leaf, if the block is not hollow. -/
def Passage.solid? : Passage → Option (List Cell × List Cell)
  | run _ _ => none
  | leaf list inner => if Hollow inner then none else some (list, inner)

/-- The solid leaves among passages. -/
def solids (passages : List Passage) : List (List Cell × List Cell) :=
  passages.filterMap Passage.solid?

/-- The solid leaves of a stylesheet, without its gaps. -/
def solidLeaves (cells : List Cell) : List (List Cell × List Cell) :=
  solids (Outline.ofCells (gist cells)).passages

theorem solids_cons (passage : Passage) (others : List Passage) :
    solids (passage :: others) = passage.solid?.toList ++ solids others := by
  simp only [solids, List.filterMap_cons]
  cases passage.solid? <;> rfl

@[simp] theorem solids_run
    (body : List Cell) (fence : Char) (others : List Passage) :
    solids (.run body fence :: others) = solids others := by
  rw [solids_cons]
  rfl

theorem sublist_solids_cons (passage : Passage) (others : List Passage) :
    (solids others).Sublist (solids (passage :: others)) := by
  rw [solids_cons]
  exact List.sublist_append_right _ _

end Solid

namespace Outline

/-- Closing a block passes over no leaf. -/
theorem solids_of_closeBlock
    {passages after : List Passage} {inner : List Cell}
    (h : closeBlock passages = some (inner, after)) :
    solids after = solids passages := by
  induction passages generalizing inner with
  | nil =>
      cases h
  | cons passage others ih =>
      cases passage with
      | leaf list inner' =>
          cases h
      | run body fence =>
          rw [solids_run]
          simp only [closeBlock] at h
          split at h
          · simp only [Option.some.injEq, Prod.mk.injEq] at h
            rw [h.2]
          · split at h
            · obtain ⟨⟨inner', after'⟩, hothers, heq⟩ :=
                Option.map_eq_some_iff.mp h
              simp only [Prod.mk.injEq] at heq
              obtain ⟨-, rfl⟩ := heq
              exact ih hothers
            · cases h

/-- A fence in front adds a passage and takes no leaf away. -/
theorem exists_consFence (c : Char) (passages : List Passage) :
    ∃ first others,
      consFence c passages = first :: others ∧ solids others = solids passages := by
  rw [consFence]
  split
  · split
    · next hclose =>
        exact ⟨_, _, rfl, solids_of_closeBlock hclose⟩
    · exact ⟨_, _, rfl, rfl⟩
  · exact ⟨_, _, rfl, rfl⟩

/-- Cells in front that end at a fence take no leaf away. -/
theorem exists_ofCells_append
    {c : Char} (hc : isFence c = true) (body rest : List Cell) :
    ∃ first others,
      (ofCells (body ++ codeCell c :: rest)).passages = first :: others ∧
      (solids (ofCells rest).passages).Sublist (solids others) := by
  induction body with
  | nil =>
      obtain ⟨first, others, hcons, hsolids⟩ :=
        exists_consFence c (ofCells rest).passages
      have hfence : (codeCell c).isFence = true := by
        simp [Cell.isFence, codeCell, hc]
      refine ⟨first, others, ?_, hsolids ▸ List.Sublist.refl _⟩
      rw [List.nil_append, ofCells_cons, cons, if_pos hfence]
      exact hcons
  | cons cell body ih =>
      obtain ⟨first, others, hpassages, hsublist⟩ := ih
      rw [List.cons_append, ofCells_cons, cons]
      split
      · obtain ⟨first', others', hcons, hsolids⟩ :=
          exists_consFence cell.char (first :: others)
        refine ⟨first', others', ?_, ?_⟩
        · simp only [hpassages]
          exact hcons
        · rw [hsolids]
          exact hsublist.trans (sublist_solids_cons first others)
      · rw [hpassages]
        cases first with
        | run body' fence =>
            exact ⟨_, others, rfl, hsublist⟩
        | leaf list inner =>
            exact ⟨_, others, rfl, hsublist⟩

/-- Up to a closing brace, cells without braces are the inside of a block. -/
theorem closeBlock_ofCells
    {inner : List Cell} (h : Braceless inner) (rest : List Cell) :
    closeBlock (ofCells (inner ++ codeCell '}' :: rest)).passages =
      some (inner, (ofCells rest).passages) := by
  induction inner with
  | nil =>
      rfl
  | cons cell inner ih =>
      have hinner : Braceless inner :=
        fun d hd => h d (List.mem_cons_of_mem cell hd)
      have hclose := ih hinner
      rw [List.cons_append, ofCells_cons, cons]
      split
      · next hfence =>
          obtain ⟨hopen, hend⟩ := h cell (by simp)
          rcases cell.isFence_cases hfence with rfl | rfl | rfl
          · exact absurd rfl hopen
          · exact absurd rfl hend
          · have hsemicolon : ∀ passages : List Passage,
                consFence ';' passages = .run [] ';' :: passages :=
              fun _ => rfl
            simp only [codeCell] at hclose ⊢
            simp [hsemicolon, closeBlock, hclose, codeCell]
      · generalize ofCells (inner ++ codeCell '}' :: rest) = outline at hclose
        obtain ⟨passages, behind⟩ := outline
        cases passages with
        | nil =>
            cases hclose
        | cons passage others =>
            cases passage with
            | leaf list inner' =>
                cases hclose
            | run body fence =>
                simp only [closeBlock] at hclose ⊢
                split
                · next hfence =>
                    rw [if_pos hfence] at hclose
                    simp only [Option.some.injEq, Prod.mk.injEq] at hclose ⊢
                    exact ⟨by rw [hclose.1], hclose.2⟩
                · next hfence =>
                    rw [if_neg hfence] at hclose
                    split
                    · next hsemicolon =>
                        rw [if_pos hsemicolon] at hclose
                        obtain ⟨⟨inner', after⟩, hothers, heq⟩ :=
                          Option.map_eq_some_iff.mp hclose
                        simp only [Prod.mk.injEq] at heq
                        simp [hothers, heq.2, ← heq.1]
                    · next hsemicolon =>
                        rw [if_neg hsemicolon] at hclose
                        cases hclose

/-- A leaf in front of cells is the first passage. -/
theorem passages_leaf_append
    {list inner : List Cell} (hlist : Fenceless list)
    (hinner : Braceless inner) (rest : List Cell) :
    (ofCells (list ++ blockCells inner ++ rest)).passages =
      .leaf list inner :: (ofCells rest).passages := by
  induction list with
  | nil =>
      have hclose := closeBlock_ofCells hinner rest
      have hcells : [] ++ blockCells inner ++ rest =
          codeCell '{' :: (inner ++ codeCell '}' :: rest) := by
        simp [blockCells]
      have hopen : (codeCell '{').isFence = true := rfl
      rw [hcells, ofCells_cons, cons, if_pos hopen]
      simp only [consFence, hclose]
      rfl
  | cons cell list ih =>
      have hcell := hlist cell (by simp)
      have hpassages := ih (fun d hd => hlist d (List.mem_cons_of_mem cell hd))
      rw [List.cons_append, List.cons_append, ofCells_cons, cons, hpassages]
      simp [hcell]

end Outline

section Yields

/--
Leaves that cells add to the solid leaves of whatever follows them.
-/
def Yields (cells : List Cell) (found : List (List Cell × List Cell)) : Prop :=
  ∀ rest, (found ++ solidLeaves rest).Sublist (solidLeaves (cells ++ rest))

theorem yields_nil : Yields [] [] := by
  intro rest
  exact List.Sublist.refl _

theorem Yields.append
    {cells cells' : List Cell} {found found' : List (List Cell × List Cell)}
    (h : Yields cells found) (h' : Yields cells' found') :
    Yields (cells ++ cells') (found ++ found') := by
  intro rest
  rw [List.append_assoc, List.append_assoc]
  exact ((List.Sublist.refl found).append (h' rest)).trans (h (cells' ++ rest))

/-- Gaps yield nothing, and take nothing away. -/
theorem yields_spaces (n : Nat) : Yields ((spaces n).map codeCell) [] := by
  intro rest
  rw [solidLeaves, solidLeaves, gist_append, gist_spaces]
  exact List.Sublist.refl _

theorem yields_run {fence : Char} (hfence : isFence fence = true)
    (body : List Cell) : Yields (body ++ [codeCell fence]) [] := by
  intro rest
  have hgap : isGap fence = false := by
    rcases isFence_cases hfence with rfl | rfl | rfl <;> rfl
  obtain ⟨first, others, hpassages, hsublist⟩ :=
    Outline.exists_ofCells_append hfence (gist body) (gist rest)
  have hgist : gist (body ++ [codeCell fence] ++ rest) =
      gist body ++ codeCell fence :: gist rest := by
    simp [gist_cons_codeCell hgap]
  rw [solidLeaves, solidLeaves, hgist, hpassages]
  exact hsublist.trans (sublist_solids_cons first others)

theorem yields_leaf
    {list inner : List Cell} (hlist : Fenceless list)
    (hinner : Braceless inner) :
    Yields (list ++ blockCells inner)
      (if Hollow inner then [] else [(gist list, gist inner)]) := by
  intro rest
  have hlist' : Fenceless (gist list) :=
    fun cell hcell => hlist cell (List.mem_filter.mp hcell).1
  have hinner' : Braceless (gist inner) :=
    fun cell hcell => hinner cell (List.mem_filter.mp hcell).1
  have hgist : gist (list ++ blockCells inner ++ rest) =
      gist list ++ blockCells (gist inner) ++ gist rest := by
    simp [blockCells, gist_cons_codeCell (c := '{') rfl,
      gist_cons_codeCell (c := '}') rfl]
  have hsolid : (Passage.leaf (gist list) (gist inner)).solid?.toList =
      if Hollow inner then [] else [(gist list, gist inner)] := by
    simp only [Passage.solid?, hollow_gist]
    split <;> rfl
  have hleaves : solidLeaves (list ++ blockCells inner ++ rest) =
      (if Hollow inner then [] else [(gist list, gist inner)]) ++
        solidLeaves rest := by
    rw [solidLeaves, hgist, Outline.passages_leaf_append hlist' hinner',
      solids_cons, hsolid]
    rfl
  simp only [hleaves, List.Sublist.refl]

end Yields

namespace Outline

theorem yields_rewrite
    {image : Leaf → List Cell}
    {found : Leaf → List (List Cell × List Cell)}
    {passages : List Passage} (hproper : Proper passages) (offset : Nat)
    (h : ∀ leaf ∈ leavesFrom offset passages,
      Yields (image leaf) (found leaf)) :
    Yields (rewrite image offset passages)
      ((leavesFrom offset passages).flatMap found) := by
  induction hproper generalizing offset with
  | nil =>
      exact yields_nil
  | @run body fence others _ hfence _ _ ih =>
      rw [rewrite_run]
      exact (yields_run hfence body).append (ih _ h)
  | @leaf list inner others _ _ _ ih =>
      simp only [leavesFrom, List.forall_mem_cons] at h
      exact h.1.append (ih _ h.2)

/-- What the new leaves yield is among the leaves of the new stylesheet. -/
theorem solidLeaves_rewritten
    {image : Leaf → List Cell}
    {found : Leaf → List (List Cell × List Cell)} {cells : List Cell}
    (h : ∀ leaf ∈ (ofCells cells).leaves, Yields (image leaf) (found leaf)) :
    ((ofCells cells).leaves.flatMap found).Sublist
      (solidLeaves (rewritten image (ofCells cells))) := by
  have hyields := yields_rewrite (proper_ofCells cells).1 0 h
  exact (List.sublist_append_left _ _).trans (hyields (ofCells cells).rest)

/-- Solid leaves are leaf passages that are not hollow. -/
theorem solidLeaves_eq_flatMap (cells : List Cell) :
    solidLeaves cells =
      (ofCells cells).leaves.flatMap
        (fun leaf =>
          if Hollow leaf.inner then []
          else [(StylesheetPruning.gist leaf.list,
            StylesheetPruning.gist leaf.inner)]) := by
  have hpassages : ∀ offset (passages : List Passage),
      solids (passages.map Passage.gist) =
        (leavesFrom offset passages).flatMap
          (fun leaf =>
            if Hollow leaf.inner then []
            else [(StylesheetPruning.gist leaf.list,
              StylesheetPruning.gist leaf.inner)]) := by
    intro offset passages
    induction passages generalizing offset with
    | nil =>
        rfl
    | cons passage others ih =>
        rw [List.map_cons, solids_cons]
        cases passage with
        | run body fence =>
            exact ih _
        | leaf list inner =>
            rw [leavesFrom, List.flatMap_cons, ih]
            simp only [Passage.gist, Passage.solid?, hollow_gist]
            split <;> rfl
  rw [solidLeaves, ofCells_gist]
  exact hpassages 0 _

end Outline

end StylesheetPruning
