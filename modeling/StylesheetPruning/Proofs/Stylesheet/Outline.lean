import StylesheetPruning.Proofs.Stylesheet.LeafScan
import StylesheetPruning.Proofs.Stylesheet.Lexing

/-!
# The outline of a stylesheet

The cells of a stylesheet fall into passages, each of which ends at a fence.
A passage is either a whole leaf, or a run up to a fence that belongs to no
leaf. What stands behind the last fence is the rest.

Everything that pruning changes is a leaf, and it is changed as a whole or in
its selector list, so every step of pruning is a map on passages.

**Results.**
* `cells_ofCells`: an outline loses nothing.
* `leafScan_outline`: the leaves of the scan are the leaf passages.
* `leavesIn_masked`, `spans_masked`: so are the leaves of the tree, and the
  empty ones among them are the empty rules.
-/

namespace StylesheetPruning

/-- Number of bytes that cells stand for. -/
def width (cells : List Cell) : Nat :=
  byteLength (chars cells)

@[simp] theorem width_nil : width [] = 0 := rfl

@[simp] theorem width_cons (cell : Cell) (rest : List Cell) :
    width (cell :: rest) = cell.char.utf8Size + width rest := by
  simp [width]

@[simp] theorem width_append (cells cells' : List Cell) :
    width (cells ++ cells') = width cells + width cells' := by
  simp [width]

theorem byteLength_masked_eq_width (cells : List Cell) :
    byteLength (cells.flatMap Cell.masked) = width cells :=
  Masking.byteLength_flatMap_masked cells

/-- A character that is no filler was not overwritten. -/
theorem Cell.eq_codeCell_of_mem_masked
    {cell : Cell} {c : Char} (h : c ∈ cell.masked)
    (hspace : c ≠ ' ') (hfiller : c ≠ 'X') : cell = codeCell c := by
  obtain ⟨d, role⟩ := cell
  cases role with
  | code =>
      simp only [masked, List.mem_singleton] at h
      rw [h]
      rfl
  | quoted =>
      rw [masked] at h
      exact absurd (List.eq_of_mem_replicate h) hfiller
  | commentStart =>
      rw [masked, spaces] at h
      exact absurd (List.eq_of_mem_replicate h) hspace
  | commentBody =>
      rw [masked, spaces] at h
      exact absurd (List.eq_of_mem_replicate h) hspace

/-- No fence among cells. -/
def Fenceless (cells : List Cell) : Prop :=
  ∀ cell ∈ cells, cell.isFence = false

/-- No brace that carries structure among cells. -/
def Braceless (cells : List Cell) : Prop :=
  ∀ cell ∈ cells, cell ≠ codeCell '{' ∧ cell ≠ codeCell '}'

theorem Fenceless.braceless {cells : List Cell} (h : Fenceless cells) :
    Braceless cells := by
  intro cell hcell
  have hfence := h cell hcell
  constructor
  · rintro rfl
    cases hfence
  · rintro rfl
    cases hfence

/-- A part of a stylesheet up to a fence. -/
inductive Passage where
  /-- A run up to a fence that belongs to no leaf. -/
  | run (body : List Cell) (fence : Char)
  /-- A selector list with a block that holds no other block. -/
  | leaf (list inner : List Cell)

/-- The cells of a block, with its braces. -/
def blockCells (inner : List Cell) : List Cell :=
  codeCell '{' :: (inner ++ [codeCell '}'])

namespace Passage

/-- The cells of a passage. -/
def cells : Passage → List Cell
  | run body fence => body ++ [codeCell fence]
  | leaf list inner => list ++ blockCells inner

end Passage

/-- The passages of a stylesheet, and what stands behind the last fence. -/
structure Outline where
  passages : List Passage
  rest : List Cell

namespace Outline

/-- The cells of an outline. -/
def cells (outline : Outline) : List Cell :=
  outline.passages.flatMap Passage.cells ++ outline.rest

section Building

/--
The inside of a block that was opened in front of passages, and the passages
behind it, if no other block begins before it ends.
-/
def closeBlock : List Passage → Option (List Cell × List Passage)
  | [] => none
  | .run body fence :: others =>
      if fence = '}' then some (body, others)
      else if fence = ';' then
        (closeBlock others).map
          (fun (inner, after) => (body ++ codeCell ';' :: inner, after))
      else none
  | .leaf _ _ :: _ => none

/-- Put a fence in front of passages. -/
def consFence (c : Char) (passages : List Passage) : List Passage :=
  if c = '{' then
    match closeBlock passages with
    | some (inner, after) => .leaf [] inner :: after
    | none => .run [] '{' :: passages
  else .run [] c :: passages

/-- Put a cell in front of an outline. -/
def cons (cell : Cell) (outline : Outline) : Outline :=
  if cell.isFence then
    { outline with passages := consFence cell.char outline.passages }
  else
    match outline.passages with
    | [] => { outline with rest := cell :: outline.rest }
    | .run body fence :: others =>
        { outline with passages := .run (cell :: body) fence :: others }
    | .leaf list inner :: others =>
        { outline with passages := .leaf (cell :: list) inner :: others }

/-- The outline of cells. -/
def ofCells (cells : List Cell) : Outline :=
  cells.foldr cons ⟨[], []⟩

theorem ofCells_cons (cell : Cell) (cells : List Cell) :
    ofCells (cell :: cells) = cons cell (ofCells cells) := rfl

theorem cells_of_closeBlock
    {passages after : List Passage} {inner : List Cell}
    (h : closeBlock passages = some (inner, after)) :
    passages.flatMap Passage.cells =
      inner ++ codeCell '}' :: after.flatMap Passage.cells := by
  induction passages generalizing inner with
  | nil =>
      simp [closeBlock] at h
  | cons passage others ih =>
      cases passage with
      | leaf list inner' =>
          simp [closeBlock] at h
      | run body fence =>
          simp only [closeBlock] at h
          split at h
          · next hfence =>
              simp only [Option.some.injEq, Prod.mk.injEq] at h
              obtain ⟨rfl, rfl⟩ := h
              simp [Passage.cells, hfence]
          · split at h
            · next hfence =>
                obtain ⟨⟨inner', after'⟩, hothers, heq⟩ :=
                  Option.map_eq_some_iff.mp h
                simp only [Prod.mk.injEq] at heq
                obtain ⟨rfl, rfl⟩ := heq
                simp [Passage.cells, hfence, ih hothers]
            · cases h

theorem cells_consFence (c : Char) (passages : List Passage) :
    (consFence c passages).flatMap Passage.cells =
      codeCell c :: passages.flatMap Passage.cells := by
  rw [consFence]
  split
  · next hopen =>
      subst hopen
      split
      · next inner after hclose =>
          simp [Passage.cells, blockCells, cells_of_closeBlock hclose]
      · simp [Passage.cells]
  · simp [Passage.cells]

theorem cells_cons (cell : Cell) (outline : Outline) :
    (cons cell outline).cells = cell :: outline.cells := by
  obtain ⟨passages, rest⟩ := outline
  rw [cons]
  split
  · next hfence =>
      have hcell : codeCell cell.char = cell := by
        rcases cell.isFence_cases hfence with rfl | rfl | rfl <;> rfl
      simp [cells, cells_consFence, hcell]
  · cases passages with
    | nil =>
        rfl
    | cons passage others =>
        cases passage <;> simp [cells, Passage.cells]

/-- An outline loses nothing. -/
theorem cells_ofCells (cells : List Cell) : (ofCells cells).cells = cells := by
  induction cells with
  | nil =>
      rfl
  | cons cell rest ih =>
      rw [ofCells_cons, cells_cons, ih]

theorem passages_append_rest (cells : List Cell) :
    (ofCells cells).passages.flatMap Passage.cells ++ (ofCells cells).rest =
      cells :=
  cells_ofCells cells

end Building

section Properness

/--
Passages as they come out of cells: what looks like a leaf is one, and fences
stand nowhere else than where a passage says.
-/
inductive Proper : List Passage → Prop
  | nil : Proper []
  | run {body : List Cell} {fence : Char} {others : List Passage} :
      Fenceless body → isFence fence = true →
      (fence = '{' → closeBlock others = none) →
      Proper others → Proper (.run body fence :: others)
  | leaf {list inner : List Cell} {others : List Passage} :
      Fenceless list → Braceless inner →
      Proper others → Proper (.leaf list inner :: others)

theorem proper_of_closeBlock
    {passages after : List Passage} {inner : List Cell}
    (hproper : Proper passages)
    (h : closeBlock passages = some (inner, after)) :
    Braceless inner ∧ Proper after := by
  induction hproper generalizing inner with
  | nil =>
      cases h
  | leaf =>
      cases h
  | @run body fence others hbody hfence hopen hothers ih =>
      simp only [closeBlock] at h
      split at h
      · simp only [Option.some.injEq, Prod.mk.injEq] at h
        obtain ⟨rfl, rfl⟩ := h
        exact ⟨hbody.braceless, hothers⟩
      · split at h
        · obtain ⟨⟨inner', after'⟩, hclose, heq⟩ :=
            Option.map_eq_some_iff.mp h
          simp only [Prod.mk.injEq] at heq
          obtain ⟨rfl, rfl⟩ := heq
          obtain ⟨hinner, hafter⟩ := ih hclose
          refine ⟨?_, hafter⟩
          intro cell hcell
          rcases List.mem_append.mp hcell with hcell | hcell
          · exact hbody.braceless cell hcell
          · rcases List.mem_cons.mp hcell with rfl | hcell
            · simp [codeCell]
            · exact hinner cell hcell
        · cases h

theorem proper_consFence
    {c : Char} {passages : List Passage}
    (hc : isFence c = true) (h : Proper passages) :
    Proper (consFence c passages) := by
  have hnil : Fenceless [] := by
    simp [Fenceless]
  rw [consFence]
  split
  · next hopen =>
      split
      · next inner after hclose =>
          obtain ⟨hinner, hafter⟩ := proper_of_closeBlock h hclose
          exact .leaf hnil hinner hafter
      · next hclose =>
          exact .run hnil rfl (fun _ => hclose) h
  · next hopen =>
      exact .run hnil hc (fun heq => absurd heq hopen) h

theorem fenceless_cons {cell : Cell} {cells : List Cell}
    (hcell : cell.isFence = false) (h : Fenceless cells) :
    Fenceless (cell :: cells) := by
  intro d hd
  rcases List.mem_cons.mp hd with rfl | hd
  · exact hcell
  · exact h d hd

/-- The passages of cells are proper, and no fence is in the rest. -/
theorem proper_ofCells (cells : List Cell) :
    Proper (ofCells cells).passages ∧ Fenceless (ofCells cells).rest := by
  induction cells with
  | nil =>
      exact ⟨.nil, by simp [ofCells, Fenceless]⟩
  | cons cell rest ih =>
      obtain ⟨hpassages, hrest⟩ := ih
      rw [ofCells_cons]
      generalize ofCells rest = outline at hpassages hrest
      obtain ⟨passages, behind⟩ := outline
      rw [cons]
      split
      · next hfence =>
          have hc : isFence cell.char = true := by
            simp only [Cell.isFence, Bool.and_eq_true] at hfence
            exact hfence.2
          exact ⟨proper_consFence hc hpassages, hrest⟩
      · next hfence =>
          have hcell : cell.isFence = false := by
            simpa using hfence
          cases hpassages with
          | nil =>
              exact ⟨.nil, fenceless_cons hcell hrest⟩
          | run hbody hfence hopen hothers =>
              exact ⟨.run (fenceless_cons hcell hbody) hfence hopen hothers,
                hrest⟩
          | leaf hlist hinner hothers =>
              exact ⟨.leaf (fenceless_cons hcell hlist) hinner hothers, hrest⟩

end Properness

end Outline

/-- A leaf passage, with the offset at which it starts. -/
structure Leaf where
  start : Nat
  list : List Cell
  inner : List Cell

namespace Leaf

/-- The leaf as a rule. -/
def rule (leaf : Leaf) : Rule :=
  ⟨leaf.start, leaf.start + width leaf.list,
    leaf.start + width leaf.list + width leaf.inner + 2, []⟩

/-- Whether a leaf is an empty rule. -/
def isEmpty (leaf : Leaf) : Bool :=
  (leaf.inner.flatMap Cell.masked).all isSpace

end Leaf

namespace Outline

/-- The leaves among passages, the first of which starts at an offset. -/
def leavesFrom : Nat → List Passage → List Leaf
  | _, [] => []
  | offset, .run body fence :: others =>
      leavesFrom (offset + width body + fence.utf8Size) others
  | offset, .leaf list inner :: others =>
      ⟨offset, list, inner⟩ ::
        leavesFrom (offset + width list + width inner + 2) others

/-- The leaves of an outline. -/
def leaves (outline : Outline) : List Leaf :=
  leavesFrom 0 outline.passages

section Scanning

theorem Braceless.masked {cells : List Cell} (h : Braceless cells) :
    ∀ c ∈ cells.flatMap Cell.masked, c ≠ '{' ∧ c ≠ '}' := by
  intro c hc
  obtain ⟨cell, hcell, hmem⟩ := List.mem_flatMap.mp hc
  constructor
  · rintro rfl
    exact (h cell hcell).1 (cell.eq_codeCell_of_mem_masked hmem (by decide) (by decide))
  · rintro rfl
    exact (h cell hcell).2 (cell.eq_codeCell_of_mem_masked hmem (by decide) (by decide))

theorem Fenceless.masked {cells : List Cell} (h : Fenceless cells) :
    ∀ c ∈ cells.flatMap Cell.masked, c ≠ ';' := by
  rintro c hc rfl
  obtain ⟨cell, hcell, hmem⟩ := List.mem_flatMap.mp hc
  have hfence := h cell hcell
  rw [cell.eq_codeCell_of_mem_masked hmem (by decide) (by decide)] at hfence
  cases hfence

/-- The leaves that the scan lists for leaf passages. -/
def entries (leaves : List Leaf) : List (Rule × Bool) :=
  leaves.map (fun leaf => (leaf.rule, leaf.isEmpty))

/--
The leaves that the scan finds in passages, given the block in which it has
seen no brace: it may end that block first.
-/
def scanned (offset : Nat) (block : Option OpenLeaf)
    (passages : List Passage) : List (Rule × Bool) :=
  match block, closeBlock passages with
  | some b, some (inner, after) =>
      (b.passAll (inner.flatMap Cell.masked)).close (offset + width inner + 1) ::
        entries (leavesFrom (offset + width inner + 1) after)
  | _, _ => entries (leavesFrom offset passages)

theorem scanned_none (offset : Nat) (passages : List Passage) :
    scanned offset none passages = entries (leavesFrom offset passages) := by
  rfl

theorem scanned_of_closeBlock_eq_none
    {offset : Nat} {block : Option OpenLeaf} {passages : List Passage}
    (h : closeBlock passages = none) :
    scanned offset block passages = entries (leavesFrom offset passages) := by
  cases block <;> simp [scanned, h]

/-- Behind a semicolon the block is still the same. -/
theorem scanned_run_semicolon
    (offset : Nat) (block : Option OpenLeaf)
    (body : List Cell) (others : List Passage) :
    scanned offset block (.run body ';' :: others) =
      scanned (offset + width body + 1)
        ((block.map (fun b => b.passAll (body.flatMap Cell.masked))).map
          (fun b => b.pass ';')) others := by
  cases block with
  | none =>
      rfl
  | some b =>
      cases hclose : closeBlock others with
      | none =>
          have hclose' : closeBlock (.run body ';' :: others) = none := by
            simp [closeBlock, hclose]
          rw [scanned_of_closeBlock_eq_none hclose',
            scanned_of_closeBlock_eq_none hclose]
          rfl
      | some closed =>
          obtain ⟨inner, after⟩ := closed
          have hmasked :
              (body ++ codeCell ';' :: inner).flatMap Cell.masked =
                body.flatMap Cell.masked ++
                  ';' :: inner.flatMap Cell.masked := by
            simp [codeCell, Cell.masked]
          have hwidth :
              offset + width (body ++ codeCell ';' :: inner) =
                offset + width body + 1 + width inner := by
            have hsemicolon : (codeCell ';').char.utf8Size = 1 := rfl
            rw [width_append, width_cons, hsemicolon]
            omega
          have hclose' :
              closeBlock (.run body ';' :: others) =
                some (body ++ codeCell ';' :: inner, after) := by
            simp [closeBlock, hclose]
          simp only [scanned, hclose, hclose', hwidth, hmasked,
            Option.map_some, OpenLeaf.passAll_append, OpenLeaf.passAll_cons]

/-- Cells without fences only move the scan. -/
theorem leafScan_fenceless
    {cells : List Cell} (h : Fenceless cells)
    (offset : Nat) (block : Option OpenLeaf) (text : Text) :
    leafScan offset offset block (cells.flatMap Cell.masked ++ text) =
      leafScan (offset + width cells) offset
        (block.map (fun b => b.passAll (cells.flatMap Cell.masked))) text := by
  obtain ⟨boundary', hboundary, hscan⟩ :=
    exists_leafScan_append (Braceless.masked h.braceless) offset offset block
      text
  rw [hscan, hboundary (Fenceless.masked h), byteLength_masked_eq_width]

/-- The scan lists a leaf passage when it has read it. -/
theorem leafScan_leaf
    {list inner : List Cell} (hlist : Fenceless list) (hinner : Braceless inner)
    (offset : Nat) (block : Option OpenLeaf) (text : Text) :
    leafScan offset offset block
        (list.flatMap Cell.masked ++
          '{' :: (inner.flatMap Cell.masked ++ '}' :: text)) =
      ((Leaf.mk offset list inner).rule, (Leaf.mk offset list inner).isEmpty) ::
        leafScan (offset + width list + width inner + 2)
          (offset + width list + width inner + 2) none text := by
  obtain ⟨boundary', -, hscan⟩ :=
    exists_leafScan_append (Braceless.masked hinner)
      (offset + width list + 1) (offset + width list + 1)
      (some ⟨offset, offset + width list, true⟩) ('}' :: text)
  have hstop : offset + width list + 1 + width inner + 1 =
      offset + width list + width inner + 2 := by
    omega
  rw [leafScan_fenceless hlist, leafScan_open, hscan,
    byteLength_masked_eq_width, leafScan_close, hstop]
  simp [OpenLeaf.close, OpenLeaf.passAll, Leaf.rule, Leaf.isEmpty]

/-- The scan finds the leaf passages. -/
theorem leafScan_passages
    {passages : List Passage} (hproper : Proper passages)
    {rest : List Cell} (hrest : Fenceless rest)
    (offset : Nat) (block : Option OpenLeaf) :
    leafScan offset offset block
        ((passages.flatMap Passage.cells ++ rest).flatMap Cell.masked) =
      scanned offset block passages := by
  induction hproper generalizing offset block with
  | nil =>
      have hscan := leafScan_fenceless hrest offset block []
      rw [List.append_nil] at hscan
      rw [scanned_of_closeBlock_eq_none rfl, List.flatMap_nil,
        List.nil_append, hscan]
      rfl
  | @run body fence others hbody hfence hopen hothers ih =>
      have hpassage :
          ((Passage.run body fence :: others).flatMap Passage.cells ++
              rest).flatMap Cell.masked =
            body.flatMap Cell.masked ++
              fence :: (others.flatMap Passage.cells ++ rest).flatMap
                Cell.masked := by
        simp [Passage.cells, codeCell, Cell.masked]
      rw [hpassage, leafScan_fenceless hbody]
      rcases isFence_cases hfence with rfl | rfl | rfl
      · have hnone : closeBlock (.run body '{' :: others) = none := rfl
        rw [leafScan_open, ih, scanned_of_closeBlock_eq_none (hopen rfl),
          scanned_of_closeBlock_eq_none hnone]
        rfl
      · rw [leafScan_close, ih, scanned_none]
        cases block with
        | none =>
            rfl
        | some b =>
            rfl
      · rw [leafScan_pass _ _ _ _ (by decide) (by decide), if_pos rfl, ih,
          scanned_run_semicolon]
        rfl
  | @leaf list inner others hlist hinner hothers ih =>
      have hpassage :
          ((Passage.leaf list inner :: others).flatMap Passage.cells ++
              rest).flatMap Cell.masked =
            list.flatMap Cell.masked ++
              '{' :: (inner.flatMap Cell.masked ++
                '}' :: (others.flatMap Passage.cells ++ rest).flatMap
                  Cell.masked) := by
        simp [Passage.cells, blockCells, codeCell, Cell.masked]
      have hnone : closeBlock (.leaf list inner :: others) = none := rfl
      rw [hpassage, leafScan_leaf hlist hinner, ih, scanned_none,
        scanned_of_closeBlock_eq_none hnone]
      rfl

/-- The leaves of the scan are the leaf passages. -/
theorem leafScan_outline (cells : List Cell) :
    leafScan 0 0 none (cells.flatMap Cell.masked) =
      entries (ofCells cells).leaves := by
  obtain ⟨hpassages, hrest⟩ := proper_ofCells cells
  have hscan := leafScan_passages hpassages hrest 0 none
  rw [passages_append_rest, scanned_none] at hscan
  exact hscan

/-- The leaves of the tree are the leaf passages. -/
theorem leavesIn_masked (cells : List Cell) :
    Rule.leavesIn (cells.flatMap Cell.masked) =
      (ofCells cells).leaves.map Leaf.rule := by
  rw [Rule.leavesIn_eq_leafScan, leafScan_outline, entries, List.map_map]
  rfl

/-- The empty rules are the empty ones among the leaf passages. -/
theorem spans_masked (cells : List Cell) :
    EmptyRules.spans (cells.flatMap Cell.masked) =
      ((ofCells cells).leaves.filter Leaf.isEmpty).map
        (fun leaf => leaf.rule.span) := by
  rw [EmptyRules.spans_eq_leafScan, leafScan_outline, entries,
    EmptyRules.emptySpans, List.filter_map, List.map_map]
  rfl

end Scanning

end Outline

end StylesheetPruning
