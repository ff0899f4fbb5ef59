import StylesheetPruning.Stylesheet.EmptyRules
import StylesheetPruning.Stylesheet.Rule

/-!
# One scan for leaves and empty rules

The tree of rules is built with a stack of open blocks, and empty rules are
found by a scan of their own. Both only need to know the last brace: a closing
brace ends a leaf exactly when the brace before it is an opening one.

**Scan.** `leafScan` keeps the block that the last opening brace began, and
whether only whitespace was seen in it. It lists every leaf, and says of each
whether it is empty.

**Results.**
* `leavesIn_eq_leafScan`: the leaves of the tree are those of the scan.
* `spans_eq_leafScan`: the empty rules are those of the scan that are empty.
-/

namespace StylesheetPruning

/-- A block in which no brace was seen so far. -/
structure OpenLeaf where
  /-- Start of the selector list in front of the block. -/
  start : Nat
  /-- Offset of the opening brace. -/
  brace : Nat
  /-- Whether only whitespace was seen. -/
  hollow : Bool

namespace OpenLeaf

/-- The block behind one more character. -/
def pass (block : OpenLeaf) (c : Char) : OpenLeaf :=
  { block with hollow := block.hollow && isSpace c }

/-- The block behind a text without braces. -/
def passAll (block : OpenLeaf) (text : Text) : OpenLeaf :=
  { block with hollow := block.hollow && text.all isSpace }

theorem passAll_cons (block : OpenLeaf) (c : Char) (text : Text) :
    block.passAll (c :: text) = (block.pass c).passAll text := by
  simp [passAll, pass, Bool.and_assoc]

theorem passAll_append (block : OpenLeaf) (text text' : Text) :
    block.passAll (text ++ text') = (block.passAll text).passAll text' := by
  simp [passAll, Bool.and_assoc]

/-- The leaf that a closing brace makes of a block, and whether it is empty. -/
def close (block : OpenLeaf) (stop : Nat) : Rule × Bool :=
  (⟨block.start, block.brace, stop, []⟩, block.hollow)

end OpenLeaf

/--
The leaves in the rest of a masked text, given the offset of the rest, one
past the last fence, and the block in which no brace was seen.
-/
def leafScan : Nat → Nat → Option OpenLeaf → Text → List (Rule × Bool)
  | _, _, _, [] => []
  | offset, boundary, block, c :: rest =>
      let next := offset + c.utf8Size
      if c = '{' then
        leafScan next next (some ⟨boundary, offset, true⟩) rest
      else if c = '}' then
        (block.map (fun b => b.close next)).toList ++
          leafScan next next none rest
      else
        leafScan next (if c = ';' then next else boundary)
          (block.map (fun b => b.pass c)) rest

theorem leafScan_open
    (offset boundary : Nat) (block : Option OpenLeaf) (rest : Text) :
    leafScan offset boundary block ('{' :: rest) =
      leafScan (offset + 1) (offset + 1) (some ⟨boundary, offset, true⟩) rest :=
  rfl

theorem leafScan_close
    (offset boundary : Nat) (block : Option OpenLeaf) (rest : Text) :
    leafScan offset boundary block ('}' :: rest) =
      (block.map (fun b => b.close (offset + 1))).toList ++
        leafScan (offset + 1) (offset + 1) none rest :=
  rfl

theorem leafScan_pass
    (offset boundary : Nat) (block : Option OpenLeaf) {c : Char} (rest : Text)
    (hopen : c ≠ '{') (hclose : c ≠ '}') :
    leafScan offset boundary block (c :: rest) =
      leafScan (offset + c.utf8Size)
        (if c = ';' then offset + c.utf8Size else boundary)
        (block.map (fun b => b.pass c)) rest := by
  rw [leafScan]
  simp only [if_neg hopen, if_neg hclose]

/--
A text without braces only moves the scan. Without semicolons, the boundary
stays where it was.
-/
theorem exists_leafScan_append
    {text : Text} (hbraces : ∀ c ∈ text, c ≠ '{' ∧ c ≠ '}')
    (offset boundary : Nat) (block : Option OpenLeaf) (rest : Text) :
    ∃ boundary',
      ((∀ c ∈ text, c ≠ ';') → boundary' = boundary) ∧
      leafScan offset boundary block (text ++ rest) =
        leafScan (offset + byteLength text) boundary'
          (block.map (fun b => b.passAll text)) rest := by
  induction text generalizing offset boundary block with
  | nil =>
      refine ⟨boundary, fun _ => rfl, ?_⟩
      cases block <;> simp [OpenLeaf.passAll]
  | cons c text ih =>
      obtain ⟨hopen, hclose⟩ := hbraces c (by simp)
      have htext : ∀ d ∈ text, d ≠ '{' ∧ d ≠ '}' :=
        fun d hd => hbraces d (List.mem_cons_of_mem c hd)
      obtain ⟨boundary', hboundary, hscan⟩ :=
        ih htext (offset + c.utf8Size)
          (if c = ';' then offset + c.utf8Size else boundary)
          (block.map (fun b => b.pass c))
      refine ⟨boundary', ?_, ?_⟩
      · intro hsemicolon
        rw [hboundary (fun d hd => hsemicolon d (List.mem_cons_of_mem c hd)),
          if_neg (hsemicolon c (by simp))]
      · rw [List.cons_append, leafScan_pass _ _ _ _ hopen hclose, hscan,
          Option.map_map, byteLength_cons, Nat.add_assoc]
        congr 2
        funext b
        exact (b.passAll_cons c text).symm

section Tree

namespace Rule

/-- Inside a rule with children, the leaves are those of the children. -/
theorem leaves_of_children_ne_nil
    {start brace stop : Nat} {children : List Rule} (h : children ≠ []) :
    leaves ⟨start, brace, stop, children⟩ = leavesOf children := by
  cases children with
  | nil =>
      exact absurd rfl h
  | cons child children =>
      rfl

/-- The innermost open block, as long as no brace was seen in it. -/
def Scan.openLeaf (scan : Scan) (hollow : Bool) : Option OpenLeaf :=
  match scan.opened with
  | [] => none
  | block :: _ =>
      if block.children.isEmpty then some ⟨block.start, block.brace, hollow⟩
      else none

/-- A closing brace adds the leaf that it ends to the leaves found. -/
theorem leavesOf_close (scan : Scan) (stop : Nat) (hollow : Bool) :
    leavesOf (scan.close stop).rules =
      leavesOf scan.rules ++
        ((scan.openLeaf hollow).map (fun b => b.close stop)).toList.map
          Prod.fst := by
  obtain ⟨offset, boundary, opened, found⟩ := scan
  -- What closing does to the leaves depends on the children of the block.
  have hleaves : ∀ start brace (children : List Rule),
      leaves ⟨start, brace, stop, children.reverse⟩ =
        leavesOf children.reverse ++
          (if children.isEmpty then [⟨start, brace, stop, []⟩] else []) := by
    intro start brace children
    cases children with
    | nil =>
        rfl
    | cons child children =>
        rw [leaves_of_children_ne_nil (by simp)]
        simp
  cases opened with
  | nil =>
      simp [Scan.close, Scan.rules, Scan.openLeaf]
  | cons block outer =>
      by_cases hchildren : block.children = []
      · cases outer <;>
          simp [Scan.close, Scan.rules, Scan.openLeaf, OpenLeaf.close,
            leavesOf_append, leavesOf, leaves, hchildren]
      · cases outer <;>
          simp [Scan.close, Scan.rules, Scan.openLeaf, leavesOf_append,
            leavesOf, hleaves, hchildren]

/-- Behind a closing brace no block is free of braces. -/
theorem openLeaf_close (scan : Scan) (stop : Nat) (hollow : Bool) :
    (scan.close stop).openLeaf hollow = none := by
  obtain ⟨offset, boundary, opened, found⟩ := scan
  cases opened with
  | nil =>
      rfl
  | cons block outer =>
      cases outer with
      | nil =>
          rfl
      | cons parent others =>
          rfl

theorem boundary_close (scan : Scan) (stop : Nat) :
    (scan.close stop).boundary = stop := by
  obtain ⟨offset, boundary, opened, found⟩ := scan
  cases opened with
  | nil =>
      rfl
  | cons block outer =>
      cases outer <;> rfl

theorem openLeaf_pass (scan : Scan) (hollow : Bool) (c : Char) :
    (scan.openLeaf hollow).map (fun b => b.pass c) =
      scan.openLeaf (hollow && isSpace c) := by
  obtain ⟨offset, boundary, opened, found⟩ := scan
  cases opened with
  | nil =>
      rfl
  | cons block outer =>
      simp only [Scan.openLeaf]
      split <;> rfl

theorem step_pass
    (scan : Scan) {c : Char} (hopen : c ≠ '{') (hclose : c ≠ '}') :
    scan.step c =
      { scan with
        offset := scan.offset + c.utf8Size
        boundary :=
          if c = ';' then scan.offset + c.utf8Size else scan.boundary } := by
  simp only [Scan.step, if_neg hopen, if_neg hclose]
  split <;> rfl

/-- The tree and the scan find the same leaves in the rest of a text. -/
theorem leavesOf_foldl_step (text : Text) (scan : Scan) (hollow : Bool) :
    leavesOf (text.foldl Scan.step scan).rules =
      leavesOf scan.rules ++
        (leafScan scan.offset scan.boundary (scan.openLeaf hollow) text).map
          Prod.fst := by
  induction text generalizing scan hollow with
  | nil =>
      simp [leafScan]
  | cons c rest ih =>
      rw [List.foldl_cons]
      by_cases hopen : c = '{'
      · subst hopen
        rw [ih _ true, leafScan_open]
        simp [Scan.step, Scan.rules, Scan.openLeaf]
        rfl
      · by_cases hclose : c = '}'
        · subst hclose
          have hstep : scan.step '}' =
              { scan.close (scan.offset + 1) with offset := scan.offset + 1 } :=
            rfl
          have hrules := leavesOf_close scan (scan.offset + 1) hollow
          have hopenLeaf := openLeaf_close scan (scan.offset + 1) hollow
          have hboundary := boundary_close scan (scan.offset + 1)
          rw [hstep, ih _ hollow, leafScan_close]
          simp only [Scan.openLeaf] at hopenLeaf
          simp only [Scan.rules, Scan.openLeaf, hopenLeaf, hboundary] at hrules ⊢
          rw [hrules]
          simp
        · rw [step_pass scan hopen hclose, ih _ (hollow && isSpace c),
            leafScan_pass _ _ _ _ hopen hclose, openLeaf_pass]
          rfl

/-- The leaves of the tree are those of the scan. -/
theorem leavesIn_eq_leafScan (masked : Text) :
    leavesIn masked = (leafScan 0 0 none masked).map Prod.fst := by
  have h := leavesOf_foldl_step masked Scan.start true
  simpa [leavesIn, ofMasked, Scan.start, Scan.rules, Scan.openLeaf, leavesOf]
    using h

end Rule

end Tree

section Empty

namespace EmptyRules

/-- The start of a block in which only whitespace was seen. -/
def candidateOf (block : Option OpenLeaf) : Option Nat :=
  block.bind (fun b => if b.hollow then some b.start else none)

/-- The spans of the empty ones among leaves. -/
def emptySpans (leaves : List (Rule × Bool)) : List Span :=
  (leaves.filter (fun leaf => leaf.2)).map (fun leaf => leaf.1.span)

theorem emptySpans_append (leaves leaves' : List (Rule × Bool)) :
    emptySpans (leaves ++ leaves') = emptySpans leaves ++ emptySpans leaves' := by
  simp [emptySpans]

theorem emptySpans_close (block : Option OpenLeaf) (stop : Nat) :
    emptySpans (block.map (fun b => b.close stop)).toList =
      ((candidateOf block).map (fun start => (⟨start, stop⟩ : Span))).toList := by
  cases block with
  | none =>
      rfl
  | some b =>
      cases h : b.hollow <;>
        simp [emptySpans, candidateOf, OpenLeaf.close, Rule.span, h]

theorem candidateOf_pass (block : Option OpenLeaf) (c : Char) :
    candidateOf (block.map (fun b => b.pass c)) =
      if isSpace c then candidateOf block else none := by
  cases block with
  | none =>
      simp [candidateOf]
  | some b =>
      cases h : isSpace c <;>
        simp [candidateOf, OpenLeaf.pass, h]

theorem step_pass
    (scan : Scan) {c : Char} (hopen : c ≠ '{') (hclose : c ≠ '}') :
    (scan.step c).found = scan.found ∧
      (scan.step c).boundary =
        if c = ';' then scan.offset + c.utf8Size else scan.boundary := by
  simp only [Scan.step, if_neg hopen, if_neg hclose]
  split
  · exact ⟨rfl, rfl⟩
  · split <;> exact ⟨rfl, rfl⟩

theorem candidate_step_pass
    {scan : Scan} {block : Option OpenLeaf} {c : Char}
    (hopen : c ≠ '{') (hclose : c ≠ '}')
    (hblock : scan.candidate = candidateOf block) :
    (scan.step c).candidate =
      candidateOf (block.map (fun b => b.pass c)) := by
  rw [candidateOf_pass]
  simp only [Scan.step, if_neg hopen, if_neg hclose]
  by_cases hsemicolon : c = ';'
  · subst hsemicolon
    rfl
  · rw [if_neg hsemicolon]
    split
    · exact hblock
    · rfl

/-- Both scans find the same empty rules in the rest of a text. -/
theorem found_foldl_step (text : Text) (scan : Scan) (block : Option OpenLeaf)
    (hblock : scan.candidate = candidateOf block) :
    (text.foldl Scan.step scan).found.reverse =
      scan.found.reverse ++
        emptySpans (leafScan scan.offset scan.boundary block text) := by
  induction text generalizing scan block with
  | nil =>
      simp [leafScan, emptySpans]
  | cons c rest ih =>
      rw [List.foldl_cons]
      by_cases hopen : c = '{'
      · subst hopen
        rw [ih _ (some ⟨scan.boundary, scan.offset, true⟩) rfl, leafScan_open]
        rfl
      · by_cases hclose : c = '}'
        · subst hclose
          rw [ih _ none rfl, leafScan_close, emptySpans_append,
            emptySpans_close, ← hblock]
          have hsize : ('}' : Char).utf8Size = 1 := rfl
          cases hcandidate : scan.candidate with
          | none =>
              simp [Scan.step, hcandidate, hsize]
          | some start =>
              simp [Scan.step, hcandidate, hsize]
        · obtain ⟨hfound, hboundary⟩ := step_pass scan hopen hclose
          rw [ih _ _ (candidate_step_pass hopen hclose hblock), hfound,
            hboundary, leafScan_pass _ _ _ _ hopen hclose]
          rfl

/-- The empty rules are the empty ones among the leaves of the scan. -/
theorem spans_eq_leafScan (masked : Text) :
    spans masked = emptySpans (leafScan 0 0 none masked) := by
  have h := found_foldl_step masked Scan.start none rfl
  simpa [spans, Scan.start] using h

end EmptyRules

end Empty

end StylesheetPruning
