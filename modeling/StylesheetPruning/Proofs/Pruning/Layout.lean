import StylesheetPruning.Proofs.Pruning.Reduction

/-!
# Where the members of a kept list stand

The members of a selector list follow each other with one comma between
neighbours. When some of them are left out, the others keep their places.

**Layout.** `Laid` says that selectors stand at their places in a text, that
there is one comma behind each but the last, and that the rest is spaces.

**Results.**
* `consecutive_readList`: the members of a list follow each other.
* `laid_keptText`: the live members of a list are laid out in what is kept.
* `byteLength_keptText`: what is kept is as long as the list.
-/

namespace StylesheetPruning

section Places

/-- Selectors that follow each other from an offset on, one comma between. -/
def Consecutive : Nat → List Selector → Prop
  | _, [] => True
  | offset, selector :: others =>
      selector.span = ⟨offset, offset + byteLength selector.source⟩ ∧
        Consecutive (offset + byteLength selector.source + 1) others

theorem Consecutive.stop_span
    {offset : Nat} {selectors : List Selector}
    (h : Consecutive offset selectors) :
    ∀ selector ∈ selectors, selector.span.stop =
      selector.span.start + byteLength selector.source := by
  induction selectors generalizing offset with
  | nil =>
      simp
  | cons selector others ih =>
      obtain ⟨hspan, hothers⟩ := h
      refine List.forall_mem_cons.mpr ⟨?_, ih hothers⟩
      rw [hspan]

theorem consecutive_map_place
    {uncommented : Text} {offset : Nat} {parts : List Text} {start : Nat}
    (h : ∀ piece ∈ Piece.place 1 start parts,
      byteLength (slice uncommented piece.span) = byteLength piece.text) :
    Consecutive (offset + start)
      ((Piece.place 1 start parts).map
        (Selector.ofPiece uncommented offset)) := by
  induction parts generalizing start with
  | nil =>
      trivial
  | cons part parts ih =>
      simp only [Piece.place, List.forall_mem_cons] at h
      obtain ⟨hpart, hparts⟩ := h
      have hothers := ih hparts
      rw [Piece.place, List.map_cons, Consecutive]
      simp only [Selector.ofPiece, hpart]
      refine ⟨?_, ?_⟩
      · simp only [Piece.span, Nat.add_assoc]
      · have hoffset : offset + start + byteLength part + 1 =
            offset + (start + byteLength part + 1) := by
          omega
        rw [hoffset]
        exact hothers

/-- The members of a list follow each other. -/
theorem consecutive_readList (cells : List Cell) (offset : Nat) :
    Consecutive offset
      (Selector.readList (cells.flatMap Cell.masked) (chars cells) offset) := by
  obtain ⟨groups, -, -, htexts, hslices⟩ := exists_groups_piecesOf cells
  -- The masked text of every member is as long as its source.
  have hlengths :
      (Selector.piecesOf (cells.flatMap Cell.masked)).map
          (fun piece => byteLength (slice (chars cells) piece.span)) =
        (Selector.piecesOf (cells.flatMap Cell.masked)).map
          (fun piece => byteLength piece.text) := by
    have hleft := congrArg (List.map byteLength) hslices
    have hright := congrArg (List.map byteLength) htexts
    rw [List.map_map, List.map_map] at hleft hright
    refine hleft.trans (Eq.trans ?_ hright.symm)
    refine List.map_congr_left ?_
    intro group _
    exact (byteLength_masked_eq_width group).symm
  rw [Selector.readList]
  split
  · trivial
  · exact @consecutive_map_place _ offset _ 0 (List.map_inj_left.mp hlengths)

end Places

section Layout

/--
Selectors at their places in a list that starts at an offset: one comma stands
behind each selector but the last, and elsewhere there are only spaces.
-/
inductive Laid : Nat → List Selector → Text → Prop
  | blank (offset n : Nat) : Laid offset [] (spaces n)
  | last {offset m : Nat} {selector : Selector} (n : Nat) :
      offset + m = selector.span.start →
      Laid offset [selector] (spaces m ++ (selector.source ++ spaces n))
  | next {offset m : Nat} {selector second : Selector}
      {others : List Selector} {text : Text} :
      offset + m = selector.span.start →
      Laid (selector.span.stop + 1) (second :: others) text →
      Laid offset (selector :: second :: others)
        (spaces m ++ (selector.source ++ ',' :: text))

/-- A selector that is laid out in a text stands at its place. -/
theorem Laid.exists_around
    {offset : Nat} {selectors : List Selector} {text : Text}
    (h : Laid offset selectors text)
    (hspans : ∀ selector ∈ selectors, selector.span.stop =
      selector.span.start + byteLength selector.source) :
    ∀ selector ∈ selectors, ∃ left right,
      text = left ++ (selector.source ++ right) ∧
      offset + byteLength left = selector.span.start := by
  induction h with
  | blank =>
      simp
  | @last offset m selector n hstart =>
      rw [List.forall_mem_singleton]
      exact ⟨spaces m, spaces n, rfl, by rw [byteLength_spaces, hstart]⟩
  | @next offset m selector second others text hstart _ ih =>
      obtain ⟨hspan, hothers⟩ := List.forall_mem_cons.mp hspans
      refine List.forall_mem_cons.mpr
        ⟨⟨spaces m, ',' :: text, rfl, by rw [byteLength_spaces, hstart]⟩, ?_⟩
      intro other hother
      obtain ⟨left, right, rfl, hleft⟩ := ih hothers other hother
      refine ⟨spaces m ++ (selector.source ++ ',' :: left), right, by simp, ?_⟩
      have hcomma : ','.utf8Size = 1 := rfl
      simp only [byteLength_append, byteLength_spaces, byteLength_cons, hcomma]
      omega

/-- A selector laid out in a part of a text stands at its place in the text. -/
theorem Laid.slice?_span
    {span : Span} {selectors : List Selector} {text list : Text}
    (h : Laid span.start selectors list) (hlist : slice? text span = some list)
    (hspans : ∀ selector ∈ selectors, selector.span.stop =
      selector.span.start + byteLength selector.source) :
    ∀ selector ∈ selectors,
      slice? text selector.span = some selector.source := by
  obtain ⟨before, after, rfl, hbefore, -⟩ := slice?_eq_some_iff.mp hlist
  intro selector hselector
  obtain ⟨left, right, rfl, hleft⟩ := h.exists_around hspans selector hselector
  rw [slice?_eq_some_iff]
  refine ⟨before ++ left, right ++ after, by simp, ?_, ?_⟩
  · rw [byteLength_append, hbefore, hleft]
  · rw [byteLength_append, hbefore, hleft, hspans selector hselector]

namespace Judgement

/-- The live members of a list. -/
def liveSelectors (judgements : List Judgement) : List Selector :=
  (judgements.filter Judgement.live).map Judgement.selector

theorem liveSelectors_cons (judgement : Judgement) (rest : List Judgement) :
    liveSelectors (judgement :: rest) =
      if judgement.live then judgement.selector :: liveSelectors rest
      else liveSelectors rest := by
  by_cases h : judgement.live = true <;> simp [liveSelectors, h]

theorem laid_keptBehind
    {offset m padding : Nat} {selector : Selector}
    {judgements : List Judgement}
    (hstart : offset + m = selector.span.start)
    (h : Consecutive (selector.span.stop + 1 + padding)
      (judgements.map Judgement.selector)) :
    Laid offset (selector :: liveSelectors judgements)
      (spaces m ++ (selector.source ++ keptBehind padding judgements)) := by
  induction judgements generalizing offset m padding selector with
  | nil =>
      exact .last padding hstart
  | cons judgement rest ih =>
      obtain ⟨hspan, hrest⟩ := h
      rw [liveSelectors_cons, keptBehind, List.cons_append, List.cons_append,
        List.append_assoc]
      split
      · refine .next hstart (ih ?_ ?_)
        · rw [hspan]
        · rw [hspan]
          exact hrest
      · refine ih hstart ?_
        have hoffset : selector.span.stop + 1 + padding +
              byteLength judgement.selector.source + 1 =
            selector.span.stop + 1 +
              (padding + 1 + byteLength judgement.selector.source) := by
          omega
        rw [← hoffset]
        exact hrest

theorem laid_keptFrom
    {offset padding : Nat} {judgements : List Judgement}
    (h : Consecutive (offset + padding)
      (judgements.map Judgement.selector)) :
    Laid offset (liveSelectors judgements) (keptFrom padding judgements) := by
  induction judgements generalizing padding with
  | nil =>
      exact .blank offset padding
  | cons judgement rest ih =>
      obtain ⟨hspan, hrest⟩ := h
      rw [liveSelectors_cons, keptFrom]
      split
      · rw [List.append_assoc]
        refine laid_keptBehind ?_ ?_
        · rw [hspan]
        · rw [hspan]
          exact hrest
      · cases rest with
        | nil =>
            exact .blank offset _
        | cons second rest =>
            refine ih ?_
            simpa [Nat.add_assoc] using hrest

/-- The live members of a list are laid out in what is kept of it. -/
theorem laid_keptText
    {offset : Nat} {judgements : List Judgement}
    (h : Consecutive offset (judgements.map Judgement.selector)) :
    Laid offset (liveSelectors judgements) (keptText judgements) :=
  laid_keptFrom h

end Judgement

end Layout

section Lengths

theorem byteLength_intercalate_cons (first : Text) (others : List Text) :
    byteLength (List.intercalate [','] (first :: others)) =
      byteLength first +
        (others.map (fun other => byteLength other + 1)).sum := by
  have hcomma : byteLength [','] = 1 := rfl
  induction others generalizing first with
  | nil =>
      simp
  | cons second others ih =>
      rw [List.intercalate_cons_cons, byteLength_append, byteLength_append, ih,
        hcomma, List.map_cons, List.sum_cons]
      omega

namespace Judgement

theorem byteLength_keptBehind (padding : Nat) (judgements : List Judgement) :
    byteLength (keptBehind padding judgements) =
      padding + (judgements.map
        (fun judgement => byteLength judgement.selector.source + 1)).sum := by
  have hcomma : ','.utf8Size = 1 := rfl
  induction judgements generalizing padding with
  | nil =>
      simp [keptBehind]
  | cons judgement rest ih =>
      rw [keptBehind, List.map_cons, List.sum_cons]
      split
      · rw [List.cons_append, List.cons_append, byteLength_cons,
          byteLength_append, byteLength_append, byteLength_spaces, ih, hcomma]
        omega
      · rw [ih]
        omega

theorem byteLength_keptFrom (padding : Nat) (judgements : List Judgement) :
    byteLength (keptFrom padding judgements) =
      padding + byteLength (List.intercalate [',']
        (judgements.map (fun judgement => judgement.selector.source))) := by
  induction judgements generalizing padding with
  | nil =>
      simp [keptFrom]
  | cons judgement rest ih =>
      rw [keptFrom, List.map_cons, byteLength_intercalate_cons, List.map_map]
      split
      · rw [byteLength_append, byteLength_append, byteLength_spaces,
          byteLength_keptBehind, Nat.zero_add]
        rw [Nat.add_assoc]
        rfl
      · rw [ih]
        cases rest with
        | nil =>
            simp
        | cons second rest =>
            rw [List.map_cons, byteLength_intercalate_cons, List.map_cons,
              List.sum_cons, List.map_map]
            simp only [List.isEmpty_cons, Bool.false_eq_true, if_false,
              Function.comp_apply]
            omega

/-- What is kept of a list is as long as the list. -/
theorem byteLength_keptText (judgements : List Judgement) :
    byteLength (keptText judgements) =
      byteLength (List.intercalate [',']
        (judgements.map (fun judgement => judgement.selector.source))) := by
  rw [keptText, byteLength_keptFrom, Nat.zero_add]

end Judgement

end Lengths

end StylesheetPruning
