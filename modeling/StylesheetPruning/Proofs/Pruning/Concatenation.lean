import StylesheetPruning.Proofs.Pruning.Accounts
import StylesheetPruning.Proofs.Pruning.Planning
import StylesheetPruning.Proofs.Stylesheet.LeadingSpace

/-!
# Stylesheets that are put together

A stylesheet that ends with a rule and leaves nothing open can be pruned
together with any other stylesheet behind it, or on its own.

**Argument.** The cells of the first stylesheet are sealed, so the second one
has the leaves that it has alone. Decisions and edits do not depend on where a
leaf stands. A closing brace parts the edited text for normal spacing. Where
the last rule of the first stylesheet is dropped, spaces stay in front of the
second one, which make a difference of one space at most.

**Results.**
* `SelfContained.sealed`: the cells of a self-contained stylesheet are sealed.
* `SelfContained.edited_append`: the edited texts are put together.
* `outcomeOf_append`: reports add up, and the texts are put together.
-/

namespace StylesheetPruning

/-- A stylesheet that ends with a rule and leaves nothing open. -/
structure SelfContained (css : Text) : Prop where
  /-- It ends in no comment and no string. -/
  finished : (Masking.ofText css).endsOpen = false
  /-- No string of it is ended by a line break. -/
  strings : UnbrokenStrings css
  /-- It ends with the closing brace of a rule. -/
  last : (Masking.ofText css).masked.getLast? = some '}'
  /-- No block is open at its end. -/
  blocks :
    ((Masking.ofText css).masked.foldl Rule.Scan.step Rule.Scan.start).opened =
      []

section Cells

/-- What ends with a brace in the masked text ends with it in the cells. -/
theorem exists_front_of_getLast?_masked
    {cells : List Cell}
    (h : (cells.flatMap Cell.masked).getLast? = some '}') :
    ∃ front, cells = front ++ [codeCell '}'] := by
  rcases List.eq_nil_or_concat cells with rfl | ⟨front, cell, rfl⟩
  · cases h
  · have hne : cell.masked ≠ [] := by
      intro hnil
      have hlength := cell.byteLength_masked
      have hpos := cell.char.utf8Size_pos
      rw [hnil, byteLength_nil] at hlength
      omega
    rw [List.concat_eq_append, List.flatMap_append, List.flatMap_singleton,
      List.getLast?_append_of_ne_nil _ hne] at h
    have hmem := List.mem_of_getLast? h
    exact ⟨front, by
      rw [List.concat_eq_append,
        cell.eq_codeCell_of_mem_masked hmem (by decide) (by decide)]⟩

namespace SelfContained

variable {css : Text}

theorem exists_annotate (h : SelfContained css) :
    ∃ front, (annotate .plain css).2 = front ++ [codeCell '}'] :=
  exists_front_of_getLast?_masked h.last

theorem exists_settledCells (h : SelfContained css) :
    ∃ front, settledCells css = front ++ [codeCell '}'] := by
  obtain ⟨front, hfront⟩ := h.exists_annotate
  refine ⟨front.flatMap Cell.settled, ?_⟩
  rw [settledCells, hfront, List.flatMap_append]
  rfl

theorem closed (h : SelfContained css) :
    openAfter 0 (braces (Masking.ofText css).masked) = 0 := by
  have hopened := length_opened_foldl_step (Masking.ofText css).masked
    Rule.Scan.start
  rw [h.blocks] at hopened
  rw [openAfter_braces]
  exact hopened.symm

/-- The cells of a self-contained stylesheet are sealed. -/
theorem sealed (h : SelfContained css) : Sealed (settledCells css) := by
  obtain ⟨front, hcells⟩ := h.exists_settledCells
  obtain ⟨state, hread⟩ := exists_reads_settledCells h.strings
  rw [hcells] at hread
  have hwhole := (whole_of_reads rfl hread).1
  constructor
  · rw [hcells]
    exact hwhole '}' rfl
  · rw [hcells]
    exact endsFenced_append_fence rfl _
  · rw [← braces_masked, flatMap_masked_settledCells]
    exact h.closed

/-- What stands behind a self-contained stylesheet is read as if alone. -/
theorem annotate_append (h : SelfContained css) (css' : Text) :
    (annotate .plain (css ++ css')).2 =
      (annotate .plain css).2 ++ (annotate .plain css').2 := by
  obtain ⟨front, hfront⟩ := h.exists_annotate
  have hread := reads_annotate .plain css
  rw [hfront] at hread
  have happend := StylesheetPruning.annotate_append
    (reads_of_reads_stop rfl hread) css'
  rw [← hfront, chars_annotate] at happend
  rw [happend]

theorem settledCells_append (h : SelfContained css) (css' : Text) :
    settledCells (css ++ css') = settledCells css ++ settledCells css' := by
  rw [settledCells, h.annotate_append, List.flatMap_append]
  rfl

end SelfContained

end Cells

section Decisions

namespace Judgement

/-- Judgements that say the same, wherever their selectors stand. -/
def Alike (judgement judgement' : Judgement) : Prop :=
  judgement.live = judgement'.live ∧
    judgement.selector.source = judgement'.selector.source

theorem forall₂_alike_judge
    (inventory : Inventory) (masked uncommented : Text) (offset offset' : Nat) :
    List.Forall₂ Alike
      (judge inventory (Selector.readList masked uncommented offset))
      (judge inventory (Selector.readList masked uncommented offset')) := by
  simp only [judge, Selector.readList]
  split
  · exact .nil
  · rw [List.forall₂_map_left_iff, List.forall₂_map_right_iff,
      List.forall₂_map_left_iff, List.forall₂_map_right_iff, List.forall₂_same]
    intro piece _
    exact ⟨rfl, rfl⟩

variable {judgements judgements' : List Judgement}

theorem deadPositions_congr (h : List.Forall₂ Alike judgements judgements') :
    deadPositions judgements = deadPositions judgements' := by
  have hfrom : ∀ i, deadFrom i judgements = deadFrom i judgements' := by
    induction h with
    | nil =>
        exact fun _ => rfl
    | cons hfirst _ ih =>
        intro i
        simp only [deadFrom, hfirst.1, ih]
  exact hfrom 0

theorem verdict_congr (h : List.Forall₂ Alike judgements judgements') :
    verdict judgements = verdict judgements' := by
  rw [verdict, verdict, deadPositions_congr h, h.length_eq]

theorem keptText_congr (h : List.Forall₂ Alike judgements judgements') :
    keptText judgements = keptText judgements' := by
  have hbehind : ∀ {judgements judgements' : List Judgement},
      List.Forall₂ Alike judgements judgements' →
      ∀ padding,
        keptBehind padding judgements = keptBehind padding judgements' := by
    intro judgements judgements' h
    induction h with
    | nil =>
        exact fun _ => rfl
    | cons hfirst _ ih =>
        intro padding
        simp only [keptBehind, hfirst.1, hfirst.2, ih]
  have hfrom : ∀ padding,
      keptFrom padding judgements = keptFrom padding judgements' := by
    induction h with
    | nil =>
        exact fun _ => rfl
    | @cons first first' rest rest' hfirst hrest ih =>
        intro padding
        have hempty : rest.isEmpty = rest'.isEmpty := by
          cases hrest <;> rfl
        simp only [keptFrom, hfirst.1, hfirst.2, hbehind hrest, hempty, ih]
  exact hfrom 0

end Judgement

namespace Leaf

variable (inventory : Inventory)

theorem forall₂_alike (start start' : Nat) (list inner : List Cell) :
    List.Forall₂ Judgement.Alike
      (decision inventory ⟨start, list, inner⟩).judgements
      (decision inventory ⟨start', list, inner⟩).judgements :=
  Judgement.forall₂_alike_judge inventory _ _ start start'

theorem placeless_verdict :
    Placeless (fun leaf => (decision inventory leaf).verdict) := by
  intro start start' list inner
  exact Judgement.verdict_congr (forall₂_alike inventory start start' list inner)

theorem placeless_drops :
    Placeless (fun leaf => (decision inventory leaf).drops) := by
  intro start start' list inner
  have hverdict := placeless_verdict inventory start start' list inner
  simp only at hverdict
  simp only [Decision.drops, hverdict]

theorem placeless_reduces :
    Placeless (fun leaf => (decision inventory leaf).reduces) := by
  intro start start' list inner
  have hverdict := placeless_verdict inventory start start' list inner
  simp only at hverdict
  simp only [Decision.reduces, hverdict]

theorem placeless_deadCount :
    Placeless (fun leaf => (decision inventory leaf).deadCount) := by
  intro start start' list inner
  have hdead := Judgement.deadPositions_congr
    (forall₂_alike inventory start start' list inner)
  exact congrArg List.length hdead

theorem placeless_outputText : Placeless (outputText inventory) := by
  intro start start' list inner
  have hverdict := placeless_verdict inventory start start' list inner
  have hkept := Judgement.keptText_congr
    (forall₂_alike inventory start start' list inner)
  have hspan : (rule ⟨start, list, inner⟩).emptied.replacement =
      (rule ⟨start', list, inner⟩).emptied.replacement := by
    simp only [Rule.emptied, span_rule, Span.length, Nat.add_sub_cancel_left,
      cells]
  simp only at hverdict
  rw [outputText, outputText, hverdict, hkept, hspan]
  rfl

end Leaf

end Decisions

section Counting

theorem length_commentSpans (cells : List Cell) :
    (commentSpans cells).length =
      cells.countP (fun cell => cell.role = .commentStart) := by
  have hgo : ∀ offset spans,
      (commentSpans.go cells offset spans).length =
        spans.length + cells.countP (fun cell => cell.role = .commentStart) := by
    induction cells with
    | nil =>
        intro offset spans
        simp [commentSpans.go]
    | cons cell rest ih =>
        intro offset spans
        cases hrole : cell.role with
        | commentStart =>
            simp only [commentSpans.go, hrole, ih, List.countP_cons,
              List.length_cons, decide_true, if_true]
            omega
        | commentBody =>
            cases spans with
            | nil =>
                simp [commentSpans.go, hrole, ih]
            | cons span earlier =>
                simp [commentSpans.go, hrole, ih]
        | code =>
            simp [commentSpans.go, hrole, ih]
        | quoted =>
            simp [commentSpans.go, hrole, ih]
  have hall := hgo 0 []
  rwa [List.length_nil, Nat.zero_add] at hall

end Counting

section Endings

open EmptyRules

/-- Passages that end with a brace still do so when their leaves do. -/
theorem Outline.endsClosed_rewrite
    {image : Leaf → List Cell} {passages : List Passage} (offset : Nat)
    (himage : ∀ leaf ∈ leavesFrom offset passages, EndsClosed (image leaf))
    (hlast : (passages.flatMap Passage.cells).getLast? = some (codeCell '}')) :
    EndsClosed (rewrite image offset passages) := by
  induction passages generalizing offset with
  | nil =>
      cases hlast
  | cons passage others ih =>
      have hcells : others ≠ [] → others.flatMap Passage.cells ≠ [] := by
        intro hne
        obtain ⟨next, behind, rfl⟩ := List.exists_cons_of_ne_nil hne
        cases next <;> simp [Passage.cells, blockCells]
      rw [List.flatMap_cons] at hlast
      cases passage with
      | run body fence =>
          rw [rewrite_run]
          by_cases hothers : others = []
          · subst hothers
            rw [List.flatMap_nil, List.append_nil, Passage.cells,
              List.getLast?_concat] at hlast
            rw [Passage.cells, Option.some.inj hlast]
            exact ⟨body, 0, List.append_nil _⟩
          · rw [List.getLast?_append_of_ne_nil _ (hcells hothers)] at hlast
            exact (ih _ himage hlast).append_left _
      | leaf list inner =>
          rw [leavesFrom, List.forall_mem_cons] at himage
          rw [rewrite]
          by_cases hothers : others = []
          · subst hothers
            rw [rewrite, List.append_nil]
            exact himage.1
          · rw [List.getLast?_append_of_ne_nil _ (hcells hothers)] at hlast
            exact (ih _ himage.2 hlast).append_left _

/-- In normal spacing, sealed cells that end with a brace are sealed. -/
theorem Sealed.exists_respaced
    {front : List Cell} (h : Sealed (front ++ [codeCell '}'])) :
    ∃ cells, Sealed cells ∧
      chars cells = normalSpacing (chars front) ++ ['}'] := by
  have hspaced : normalSpacing (chars (front ++ [codeCell '}'])) =
      normalSpacing (chars front) ++ ['}'] := by
    rw [chars_append]
    exact normalSpacing_append (chars front) []
  obtain ⟨cells, hcells, hgist, hread⟩ :=
    exists_reads_respaced (respaced_normalSpacing _) rfl (h.block none)
  rw [hspaced] at hcells
  obtain ⟨front', last, rfl, hfront', hlast⟩ := List.map_eq_append_iff.mp hcells
  obtain ⟨cell, rfl, hchar⟩ := List.map_eq_singleton_iff.mp hlast
  -- The last cell is no gap, so the gist has its role.
  have hcell : cell = codeCell '}' := by
    have hgap : isGap cell.char = false := by
      rw [hchar]
      rfl
    have hfence : isGap '}' = false := rfl
    rw [gist_append, gist_append, gist_cons, hgap,
      gist_cons_codeCell hfence] at hgist
    exact (List.cons.inj (List.append_inj_right' hgist rfl)).1
  subst hcell
  refine ⟨_, ⟨(whole_of_reads rfl hread).1 '}' rfl,
    endsFenced_append_fence rfl front', ?_⟩, hcells⟩
  rw [← visible_gist, hgist, visible_gist]
  exact h.closed

/-- What follows a brace and spaces behind sealed cells is swept on its own. -/
theorem Sealed.exists_swept
    {front : List Cell} (h : Sealed (front ++ [codeCell '}'])) (n : Nat) :
    ∃ kept removed, ∀ text,
      unspaced (sweep (normalSpacing
          (chars front ++ '}' :: spaces n ++ text))).text =
        kept ++ unspaced (sweep (normalSpacing text)).text ∧
      (sweep (normalSpacing
          (chars front ++ '}' :: spaces n ++ text))).removed =
        removed + (sweep (normalSpacing text)).removed := by
  obtain ⟨cells, hcells, hchars⟩ := h.exists_respaced
  refine ⟨unspaced (sweep (chars cells)).text, (sweep (chars cells)).removed, ?_⟩
  intro text
  have hspaced : normalSpacing (chars front ++ '}' :: spaces n ++ text) =
      chars cells ++ normalSpacing (spaces n ++ text) := by
    rw [List.append_assoc, List.cons_append, normalSpacing_append, hchars,
      List.append_assoc]
    rfl
  have hgaps : ∀ c ∈ spaces n, isGap c = true := by
    intro c hc
    rw [List.eq_of_mem_replicate hc]
    rfl
  obtain ⟨htext, hremoved⟩ :=
    (spaceApart_normalSpacing hgaps text).run passLimit 0
  rw [hspaced, hcells.sweep_append, unspaced_append]
  exact ⟨congrArg _ htext.unspaced_eq, congrArg _ hremoved⟩

end Endings

namespace SelfContained

variable {css : Text}

section Reports

theorem length_comments_append (h : SelfContained css) (css' : Text) :
    (Masking.ofText (css ++ css')).comments.length =
      (Masking.ofText css).comments.length +
        (Masking.ofText css').comments.length := by
  have hcomments : ∀ css, (Masking.ofText css).comments.length =
      (annotate .plain css).2.countP
        (fun cell => cell.role = .commentStart) :=
    fun css => length_commentSpans _
  rw [hcomments, hcomments, hcomments, h.annotate_append, List.countP_append]

variable {inventory : Inventory}

/-- What does not depend on the place of a leaf is decided on its own. -/
theorem map_decisions_append
    (h : SelfContained css) {β : Type} {f : Decision → β}
    (hf : Placeless (fun leaf => f (leaf.decision inventory)))
    (css' : Text) :
    ((Sheet.ofText (css ++ css')).decisions inventory).map f =
      ((Sheet.ofText css).decisions inventory).map f ++
        ((Sheet.ofText css').decisions inventory).map f := by
  have hmap : ∀ css, ((Sheet.ofText css).decisions inventory).map f =
      (Outline.ofCells (settledCells css)).leaves.map
        (fun leaf => f (leaf.decision inventory)) := by
    intro css
    rw [decisions_eq_map, List.map_map]
    rfl
  rw [hmap, hmap, hmap, h.settledCells_append]
  exact h.sealed.map_leaves_append hf _

theorem length_decisions_append (h : SelfContained css) (css' : Text) :
    ((Sheet.ofText (css ++ css')).decisions inventory).length =
      ((Sheet.ofText css).decisions inventory).length +
        ((Sheet.ofText css').decisions inventory).length := by
  have hlength := congrArg List.length
    (h.map_decisions_append (Leaf.placeless_verdict inventory) css')
  simpa only [List.length_map, List.length_append] using hlength

theorem countP_decisions_append
    (h : SelfContained css) {p : Decision → Bool}
    (hp : Placeless (fun leaf => p (leaf.decision inventory)))
    (css' : Text) :
    ((Sheet.ofText (css ++ css')).decisions inventory).countP p =
      ((Sheet.ofText css).decisions inventory).countP p +
        ((Sheet.ofText css').decisions inventory).countP p := by
  have hcount := congrArg (List.countP id) (h.map_decisions_append hp css')
  rwa [List.countP_append, List.countP_map, List.countP_map,
    List.countP_map] at hcount

theorem sum_decisions_append
    (h : SelfContained css) {f : Decision → Nat}
    (hf : Placeless (fun leaf => f (leaf.decision inventory)))
    (css' : Text) :
    (((Sheet.ofText (css ++ css')).decisions inventory).map f).sum =
      (((Sheet.ofText css).decisions inventory).map f).sum +
        (((Sheet.ofText css').decisions inventory).map f).sum := by
  rw [h.map_decisions_append hf, List.sum_append]

end Reports

section Texts

open EmptyRules

variable (inventory : Inventory)

/-- Stylesheets are edited one by one. -/
theorem edited_append (h : SelfContained css) (css' : Text) :
    (Sheet.ofText (css ++ css')).edited inventory =
      (Sheet.ofText css).edited inventory ++
        (Sheet.ofText css').edited inventory := by
  have himage : Placeless
      (fun leaf => (Leaf.outputText inventory leaf).map codeCell) := by
    intro start start' list inner
    exact congrArg (List.map codeCell)
      (Leaf.placeless_outputText inventory start start' list inner)
  rw [edited_ofText, edited_ofText, edited_ofText, h.settledCells_append,
    h.sealed.rewritten_append himage, chars_append]

/-- Edits leave sealed cells that end with a brace, and spaces. -/
theorem exists_sealed_edited (h : SelfContained css) :
    ∃ front n, Sealed (front ++ [codeCell '}']) ∧
      (Sheet.ofText css).edited inventory =
        chars front ++ '}' :: spaces n := by
  obtain ⟨image, found, state, hedited, hread⟩ :=
    exists_images h.strings inventory
  have hbraces := losesPairs_edited hedited
  have hends : EndsClosed
      (Outline.rewritten image (Outline.ofCells (settledCells css))) := by
    obtain ⟨front, hfront⟩ := h.exists_settledCells
    rw [Outline.rewritten, h.sealed.rest_eq_nil, List.append_nil]
    refine Outline.endsClosed_rewrite 0
      (fun leaf hleaf => (hedited leaf hleaf).ends) ?_
    rw [h.sealed.flatMap_passages, hfront, List.getLast?_concat]
  obtain ⟨front, n, hcells⟩ := hends
  rw [← List.singleton_append, ← List.append_assoc] at hcells
  rw [hcells] at hread hbraces
  obtain ⟨between, hfront, -⟩ := reads_append.mp hread
  refine ⟨front, n, ⟨?_, endsFenced_append_fence rfl front, ?_⟩, ?_⟩
  · exact (whole_of_reads rfl hfront).1 '}' rfl
  · have hclosed := hbraces.openAfter 0
    rwa [visible_append, visible_spaces, List.append_nil, h.closed] at hclosed
  · refine (applyAll_plan hedited).trans ?_
    rw [hcells, chars_append, chars_append, chars_map_codeCell,
      List.append_assoc]
    rfl

/-- What follows an edited stylesheet is swept on its own. -/
theorem sweep_edited_append (h : SelfContained css) (text : Text) :
    unspaced (sweep (normalSpacing
        ((Sheet.ofText css).edited inventory ++ text))).text =
      unspaced (sweep (normalSpacing
          ((Sheet.ofText css).edited inventory))).text ++
        unspaced (sweep (normalSpacing text)).text ∧
    (sweep (normalSpacing
        ((Sheet.ofText css).edited inventory ++ text))).removed =
      (sweep (normalSpacing
          ((Sheet.ofText css).edited inventory))).removed +
        (sweep (normalSpacing text)).removed := by
  obtain ⟨front, n, hsealed, hedited⟩ := h.exists_sealed_edited inventory
  obtain ⟨kept, removed, hswept⟩ := hsealed.exists_swept n
  rw [← hedited] at hswept
  have hnil : sweep (normalSpacing []) = ⟨[], 0⟩ := sweep_eq_self rfl
  have hfirst := hswept []
  rw [List.append_nil, hnil] at hfirst
  obtain ⟨htext, hremoved⟩ := hswept text
  rw [htext, hremoved, hfirst.1, hfirst.2]
  simp [unspaced]

end Texts

end SelfContained

/-- Reports add up counter by counter. -/
instance : Add Report where
  add report report' :=
    { analyzed := report.analyzed + report'.analyzed
      dropped := report.dropped + report'.dropped
      reduced := report.reduced + report'.reduced
      selectors := report.selectors + report'.selectors
      comments := report.comments + report'.comments
      emptied := report.emptied + report'.emptied }

theorem Report.add_eq (report report' : Report) :
    report + report' =
      { analyzed := report.analyzed + report'.analyzed
        dropped := report.dropped + report'.dropped
        reduced := report.reduced + report'.reduced
        selectors := report.selectors + report'.selectors
        comments := report.comments + report'.comments
        emptied := report.emptied + report'.emptied } := rfl

/--
A self-contained stylesheet and any other one behind it are pruned one by one:
every counter of the report is the sum of the two, and the texts are put
together, up to spaces.
-/
theorem outcomeOf_append
    {css : Text} (h : SelfContained css) (css' page : Text) :
    (outcomeOf (css ++ css') page).report =
        (outcomeOf css page).report + (outcomeOf css' page).report ∧
      unspaced (usedRules (css ++ css') page) =
        unspaced (usedRules css page) ++ unspaced (usedRules css' page) := by
  have hswept := h.sweep_edited_append (Inventory.ofPage page)
    ((Sheet.ofText css').edited (Inventory.ofPage page))
  rw [← h.edited_append] at hswept
  obtain ⟨htext, hremoved⟩ := hswept
  constructor
  · simp only [report_outcomeOf, h.length_decisions_append,
      h.countP_decisions_append (Leaf.placeless_drops _),
      h.countP_decisions_append (Leaf.placeless_reduces _),
      h.sum_decisions_append (Leaf.placeless_deadCount _),
      h.length_comments_append, hremoved, Report.add_eq]
  · rw [usedRules_eq, usedRules_eq, usedRules_eq, unspaced_trimSpaces,
      unspaced_trimSpaces, unspaced_trimSpaces]
    exact htext

/--
The last rule of the first stylesheet is dropped; in the second one, a line
break ends a string and a comment is left open.
-/
theorem outcomeOf_append_dropped :
    SelfContained ".a\x7bx:1\x7d .b\x7b/*c*/y:2\x7d".toList ∧
    (outcomeOf ".a\x7bx:1\x7d .b\x7b/*c*/y:2\x7d".toList
      "<p class=a>".toList).report = ⟨2, 1, 0, 1, 1, 1⟩ ∧
    (outcomeOf " + .a,.c\x7bb: '\n\x7d/*".toList
      "<p class=a>".toList).report = ⟨1, 0, 1, 1, 1, 0⟩ ∧
    (outcomeOf
        (".a\x7bx:1\x7d .b\x7b/*c*/y:2\x7d".toList ++
          " + .a,.c\x7bb: '\n\x7d/*".toList)
        "<p class=a>".toList).report =
      ⟨3, 1, 1, 2, 2, 1⟩ ∧
    unspaced (usedRules
        (".a\x7bx:1\x7d .b\x7b/*c*/y:2\x7d".toList ++
          " + .a,.c\x7bb: '\n\x7d/*".toList)
        "<p class=a>".toList) =
      unspaced (usedRules ".a\x7bx:1\x7d .b\x7b/*c*/y:2\x7d".toList
          "<p class=a>".toList) ++
        unspaced (usedRules " + .a,.c\x7bb: '\n\x7d/*".toList
          "<p class=a>".toList) := by
  have hfirst : SelfContained ".a\x7bx:1\x7d .b\x7b/*c*/y:2\x7d".toList :=
    { finished := by decide
      strings := by decide
      last := by decide
      blocks := by rfl }
  have hreport : (outcomeOf ".a\x7bx:1\x7d .b\x7b/*c*/y:2\x7d".toList
      "<p class=a>".toList).report = ⟨2, 1, 0, 1, 1, 1⟩ := by
    decide +kernel
  have hreport' : (outcomeOf " + .a,.c\x7bb: '\n\x7d/*".toList
      "<p class=a>".toList).report = ⟨1, 0, 1, 1, 1, 0⟩ := by
    decide +kernel
  obtain ⟨hreports, htexts⟩ := outcomeOf_append hfirst
    " + .a,.c\x7bb: '\n\x7d/*".toList "<p class=a>".toList
  rw [hreport, hreport'] at hreports
  exact ⟨hfirst, hreport, hreport', hreports, htexts⟩

end StylesheetPruning
