import Mathlib.Logic.Function.Iterate
import StylesheetPruning.Proofs.Stylesheet.CalmSpacing
import StylesheetPruning.Stylesheet.Tidy

/-!
# Sweeping and trimming

A pass of the sweep replaces every empty leaf by nothing. What holds of a text
and is kept by a pass holds of the swept text.

**Results.**
* `pass_eq_rewritten`, `pass_eq`: a pass rewrites the leaves.
* `NormalSpaced.pass`: a pass keeps the normal spacing.
* `exists_reads_pass`: a pass keeps a calm reading and every solid leaf.
* `exists_reads_trimSpaces`: so does trimming.
-/

namespace StylesheetPruning

namespace Outline

theorem parts_of_mem_leaves
    {cells : List Cell} {leaf : Leaf} (h : leaf ∈ (ofCells cells).leaves) :
    Fenceless leaf.list ∧ Braceless leaf.inner := by
  have hproper : ∀ offset (passages : List Passage), Proper passages →
      ∀ leaf ∈ leavesFrom offset passages,
        Fenceless leaf.list ∧ Braceless leaf.inner := by
    intro offset passages hproper
    induction hproper generalizing offset with
    | nil =>
        simp [leavesFrom]
    | run _ _ _ _ ih =>
        exact ih _
    | leaf hlist hinner _ ih =>
        intro leaf hleaf
        rcases List.mem_cons.mp hleaf with rfl | hleaf
        · exact ⟨hlist, hinner⟩
        · exact ih _ leaf hleaf
  exact hproper 0 _ (proper_ofCells cells).1 leaf h

end Outline

namespace Leaf

/-- What a pass leaves of a leaf. -/
def swept (leaf : Leaf) : List Cell :=
  if leaf.isEmpty then [] else leaf.cells

/-- The edit of a leaf in a pass. -/
def deletion? (leaf : Leaf) : Option Edit :=
  if leaf.isEmpty then some (Edit.delete leaf.rule.span) else none

/-- The span of a leaf is as long as its cells. -/
theorem span_rule (leaf : Leaf) :
    leaf.rule.span =
      ⟨leaf.start, leaf.start + byteLength (chars leaf.cells)⟩ := by
  have hwidth := leaf.width_cells
  simp only [width] at hwidth
  simp only [rule, Rule.span, hwidth, Span.mk.injEq, true_and, width]
  omega

theorem rebuilt_swept (leaf : Leaf) :
    Rebuilt leaf.start (chars leaf.cells) leaf.deletion?.toList
      (chars leaf.swept) := by
  rw [deletion?, swept]
  split
  · have hcells : chars leaf.cells ≠ [] := by
      simp [chars, leaf.cells_ne_nil]
    have h := Rebuilt.single leaf.start [] hcells
    rw [← span_rule] at h
    exact h
  · exact .done _ _

/-- Nothing but whitespace carries structure in an empty leaf. -/
theorem hollow_of_isEmpty {leaf : Leaf} (h : leaf.isEmpty = true) :
    Hollow leaf.inner := by
  rw [isEmpty, List.all_eq_true] at h
  intro cell hcell hrole
  refine h cell.char (List.mem_flatMap.mpr ⟨cell, hcell, ?_⟩)
  simp [Cell.masked, hrole]

theorem yields_swept
    {cells : List Cell} {leaf : Leaf}
    (h : leaf ∈ (Outline.ofCells cells).leaves) :
    Yields leaf.swept
      (if Hollow leaf.inner then []
        else [(gist leaf.list, gist leaf.inner)]) := by
  obtain ⟨hlist, hinner⟩ := Outline.parts_of_mem_leaves h
  rw [swept]
  split
  · next hempty =>
      rw [if_pos (hollow_of_isEmpty hempty)]
      exact yields_nil
  · exact yields_leaf hlist hinner

end Leaf

namespace EmptyRules

/-- One pass over a text. -/
def pass (text : Text) : Text :=
  Edit.applyAll text ((spans (Masking.ofText text).masked).map Edit.delete)

/-- Number of empty rules that a pass over a text removes. -/
def emptied (text : Text) : Nat :=
  (spans (Masking.ofText text).masked).length

theorem pass_eq_self {text : Text}
    (h : spans (Masking.ofText text).masked = []) : pass text = text := by
  rw [pass, h]
  rfl

/-- A text without empty rules is swept already. -/
theorem run_eq_self (n : Nat) {state : Sweep}
    (h : spans (Masking.ofText state.text).masked = []) :
    Sweep.run n state = state := by
  cases n with
  | zero =>
      rfl
  | succ n =>
      rw [Sweep.run]
      simp [h]

theorem sweep_eq_self {text : Text}
    (h : spans (Masking.ofText text).masked = []) :
    sweep text = ⟨text, 0⟩ :=
  run_eq_self passLimit h

/-- Where there is nothing to remove, another pass changes nothing. -/
theorem run_succ (n : Nat) (state : Sweep) :
    Sweep.run (n + 1) state =
      Sweep.run n ⟨pass state.text, state.removed + emptied state.text⟩ := by
  by_cases h : spans (Masking.ofText state.text).masked = []
  · rw [run_eq_self _ h, pass_eq_self h, emptied, h]
    exact (run_eq_self n h).symm
  · rw [Sweep.run, pass, emptied]
    simp [h]

/-- What a pass keeps, any number of passes keeps. -/
theorem run_preserves
    {P : Text → Prop} (hpass : ∀ text, P text → P (pass text)) (n : Nat)
    {state : Sweep} (h : P state.text) : P (Sweep.run n state).text := by
  induction n generalizing state with
  | zero =>
      exact h
  | succ n ih =>
      rw [run_succ]
      exact ih (hpass _ h)

theorem sweep_preserves
    {P : Text → Prop} (hpass : ∀ text, P text → P (pass text))
    {text : Text} (h : P text) : P (sweep text).text :=
  run_preserves hpass passLimit h

/-- The swept text is what the passes leave one after the other. -/
theorem text_run (n : Nat) (state : Sweep) :
    (Sweep.run n state).text = pass^[n] state.text := by
  induction n generalizing state with
  | zero =>
      rfl
  | succ n ih =>
      rw [run_succ, ih, Function.iterate_succ_apply]

/-- A pass rewrites the leaves. -/
theorem pass_eq_rewritten
    {cells : List Cell}
    (hmasked : (Masking.ofText (chars cells)).masked =
      cells.flatMap Cell.masked) :
    pass (chars cells) =
      chars (Outline.rewritten Leaf.swept (Outline.ofCells cells)) := by
  have hedits :
      (spans (cells.flatMap Cell.masked)).map Edit.delete =
        (Outline.ofCells cells).leaves.filterMap Leaf.deletion? := by
    rw [Outline.spans_masked]
    induction (Outline.ofCells cells).leaves with
    | nil =>
        rfl
    | cons leaf leaves ih =>
        rw [List.filter_cons]
        split
        · next hempty =>
            rw [List.map_cons, List.map_cons, ih,
              List.filterMap_cons_some (b := Edit.delete leaf.rule.span)
                (by rw [Leaf.deletion?, if_pos hempty])]
        · next hempty =>
            rw [ih, List.filterMap_cons_none
              (by rw [Leaf.deletion?, if_neg hempty])]
  rw [pass, hmasked, hedits]
  refine Outline.applyAll_rewritten ?_
  intro leaf _
  exact leaf.rebuilt_swept

theorem masked_annotate (text : Text) :
    (Masking.ofText (chars (annotate .plain text).2)).masked =
      (annotate .plain text).2.flatMap Cell.masked := by
  rw [chars_annotate]
  rfl

/-- A pass rewrites the leaves of any text. -/
theorem pass_eq (text : Text) :
    pass text = chars (Outline.rewritten Leaf.swept
      (Outline.ofCells (annotate .plain text).2)) := by
  rw [← pass_eq_rewritten (masked_annotate text), chars_annotate]

/-- A pass keeps a calm reading. -/
theorem reads_swept
    {cells : List Cell} {state : Lexing}
    (h : Reads calmly .plain cells none state) :
    Reads calmly .plain
      (Outline.rewritten Leaf.swept (Outline.ofCells cells)) none state := by
  refine Outline.reads_rewritten h ?_
  intro leaf _ hwhole
  rw [Leaf.swept]
  split
  · exact block_nil
  · exact Leaf.block hwhole

/-- A pass keeps a calm reading and every solid leaf. -/
theorem exists_reads_pass
    {cells : List Cell} {state : Lexing}
    (h : Reads calmly .plain cells none state) :
    ∃ cells', chars cells' = pass (chars cells) ∧
      Reads calmly .plain cells' none state ∧
      (solidLeaves cells).Sublist (solidLeaves cells') := by
  refine ⟨Outline.rewritten Leaf.swept (Outline.ofCells cells),
    (pass_eq_rewritten (masked_of_reads h)).symm, reads_swept h, ?_⟩
  rw [Outline.solidLeaves_eq_flatMap]
  exact Outline.solidLeaves_rewritten (fun leaf hleaf => Leaf.yields_swept hleaf)

end EmptyRules

/-- The first pass removes no more than all passes together. -/
theorem emptied_le_removed (n : Nat) (sweep : EmptyRules.Sweep) :
    sweep.removed + EmptyRules.emptied sweep.text ≤
      (EmptyRules.Sweep.run (n + 1) sweep).removed := by
  have hle : ∀ (n : Nat) (sweep : EmptyRules.Sweep),
      sweep.removed ≤ (EmptyRules.Sweep.run n sweep).removed := by
    intro n
    induction n with
    | zero =>
        exact fun _ => Nat.le_refl _
    | succ n ih =>
        intro sweep
        rw [EmptyRules.run_succ]
        exact Nat.le_trans (Nat.le_add_right _ _) (ih ⟨_, _⟩)
  rw [EmptyRules.run_succ]
  exact hle n ⟨_, _⟩

theorem EmptyRules.emptied_le_removed_sweep (text : Text) :
    emptied text ≤ (sweep text).removed := by
  have h := emptied_le_removed 15 ⟨text, 0⟩
  rwa [Nat.zero_add] at h

section NormalForm

/-- The last character of a text is a fence, if it has one. -/
def EndsAtFence (text : Text) : Prop :=
  ∀ c ∈ text.getLast?, c = '\x7b' ∨ c = '\x7d' ∨ c = ';'

theorem endsAtFence_append_fence
    {fence : Char} (h : isFence fence = true) (text : Text) :
    EndsAtFence (text ++ [fence]) := by
  intro c hc
  rw [List.getLast?_append] at hc
  cases hc
  exact isFence_cases h

/-- Sweeping passages keeps the normal spacing of the text around them. -/
theorem NormalSpaced.rewrite_swept
    {passages : List Passage} (hproper : Outline.Proper passages)
    (offset : Nat) {front back : Text} (hfront : EndsAtFence front)
    (h : NormalSpaced
      (front ++ (chars (passages.flatMap Passage.cells) ++ back))) :
    NormalSpaced
      (front ++ (chars (Outline.rewrite Leaf.swept offset passages) ++ back)) := by
  induction hproper generalizing offset front with
  | nil =>
      exact h
  | @run body fence others _ hfence _ _ ih =>
      have hlast : EndsAtFence (front ++ (chars body ++ [fence])) := by
        rw [← List.append_assoc]
        exact endsAtFence_append_fence hfence _
      have htext : NormalSpaced (front ++ (chars body ++ [fence]) ++
          (chars (others.flatMap Passage.cells) ++ back)) := by
        simpa [Passage.cells, codeCell] using h
      have hrun := ih (offset + width body + fence.utf8Size) hlast htext
      simpa [Outline.rewrite, codeCell] using hrun
  | @leaf list inner others _ _ _ ih =>
      rw [List.flatMap_cons, chars_append, List.append_assoc] at h
      rw [Outline.rewrite, chars_append, List.append_assoc, Leaf.swept]
      split
      · exact ih _ hfront (h.delete hfront)
      · have hlast : chars (Passage.leaf list inner).cells =
            (chars list ++ '{' :: chars inner) ++ ['}'] := by
          simp [Passage.cells, blockCells, codeCell]
        rw [← List.append_assoc] at h ⊢
        refine ih _ ?_ h
        rw [show chars (Leaf.cells ⟨offset, list, inner⟩) =
          chars (Passage.leaf list inner).cells from rfl, hlast,
          ← List.append_assoc]
        exact endsAtFence_append_fence rfl _

/-- A pass keeps the normal spacing. -/
theorem NormalSpaced.pass {text : Text} (h : NormalSpaced text) :
    NormalSpaced (EmptyRules.pass text) := by
  rw [EmptyRules.pass_eq]
  rw [← chars_annotate .plain text] at h
  generalize (annotate .plain text).2 = cells at h
  rw [← Outline.passages_append_rest cells, chars_append] at h
  have hfront : EndsAtFence [] := by
    intro c hc
    cases hc
  have hswept :=
    NormalSpaced.rewrite_swept (Outline.proper_ofCells cells).1 0 hfront h
  rw [Outline.rewritten, chars_append]
  exact hswept

end NormalForm

section Trimming

/-- Trimming takes away spaces at the two ends. -/
theorem exists_spaces_trimSpaces (text : Text) :
    ∃ m n, text = spaces m ++ (trimSpaces text ++ spaces n) := by
  have hfront : ∀ text : Text, ∃ m,
      text = spaces m ++ text.dropWhile (fun c => c = ' ') := by
    intro text
    induction text with
    | nil =>
        exact ⟨0, rfl⟩
    | cons c rest ih =>
        by_cases hc : c = ' '
        · obtain ⟨m, hm⟩ := ih
          subst hc
          refine ⟨m + 1, ?_⟩
          rw [List.dropWhile_cons_of_pos (by simp)]
          exact congrArg (List.cons ' ') hm
        · refine ⟨0, ?_⟩
          rw [List.dropWhile_cons_of_neg (by simpa using hc)]
          rfl
  obtain ⟨m, hm⟩ := hfront text
  obtain ⟨n, hn⟩ := hfront (text.dropWhile (fun c => c = ' ')).reverse
  refine ⟨m, n, ?_⟩
  have hback := congrArg List.reverse hn
  rw [List.reverse_reverse, List.reverse_append, spaces,
    List.reverse_replicate] at hback
  rw [trimSpaces]
  exact hm.trans (congrArg _ hback)

theorem trimSpaces_part (text : Text) : trimSpaces text <:+: text := by
  obtain ⟨m, n, h⟩ := exists_spaces_trimSpaces text
  exact ⟨spaces m, spaces n, by rw [List.append_assoc]; exact h.symm⟩

theorem ungapped_trimSpaces (text : Text) :
    ungapped (trimSpaces text) = ungapped text := by
  obtain ⟨m, n, h⟩ := exists_spaces_trimSpaces text
  have hungapped := congrArg ungapped h
  simp only [ungapped_append, ungapped_spaces, List.nil_append,
    List.append_nil] at hungapped
  exact hungapped.symm

theorem unspaced_trimSpaces (text : Text) :
    unspaced (trimSpaces text) = unspaced text := by
  obtain ⟨m, n, h⟩ := exists_spaces_trimSpaces text
  have hunspaced := congrArg unspaced h
  rw [unspaced_append, unspaced_append, unspaced_spaces, unspaced_spaces,
    List.nil_append, List.append_nil] at hunspaced
  exact hunspaced.symm

theorem gist_eq_nil_of_chars_eq_spaces
    {cells : List Cell} {n : Nat} (h : chars cells = spaces n) :
    gist cells = [] := by
  refine List.filter_eq_nil_iff.mpr ?_
  intro cell hcell
  have hmem : cell.char ∈ chars cells := List.mem_map_of_mem hcell
  rw [h] at hmem
  rw [List.eq_of_mem_replicate hmem]
  decide

/-- Behind spaces, the machine still stands outside of strings. -/
theorem eq_plain_of_reads_spaces
    {ok : Lexing → Cell → Prop} {cells : List Cell} {n : Nat}
    {next : Option Char} {state : Lexing} (hcells : chars cells = spaces n)
    (h : Reads ok .plain cells next state) : state = .plain := by
  induction cells generalizing n with
  | nil =>
      exact h.symm
  | cons cell rest ih =>
      cases n with
      | zero =>
          cases hcells
      | succ n =>
          obtain ⟨hchar, hrest⟩ := List.cons.inj hcells
          obtain ⟨-, -, hback⟩ := h
          rw [hchar] at hback
          exact ih hrest hback

theorem step_none_role (state : Lexing) (c : Char) :
    (state.step c none).2 = (state.step c (some ' ')).2 := by
  cases state with
  | plain =>
      by_cases hquote : Lexing.isQuote c = true
      · simp [Lexing.step, hquote]
      · by_cases hescape : c = '\\'
        · simp [Lexing.step, hescape, Lexing.isQuote]
        · simp [Lexing.step, hquote, hescape]
  | escaped =>
      rfl
  | commentOpen =>
      rfl
  | comment =>
      simp [Lexing.step]
  | commentClose =>
      rfl
  | quoted quote =>
      by_cases hend : c = quote ∨ isLineBreak c = true
      · simp only [Lexing.step, if_pos hend]
      · by_cases hescape : c = '\\'
        · simp only [Lexing.step, if_neg hend]
          split <;> split <;> rfl
        · simp [Lexing.step, hescape]
  | quotedEscaped quote =>
      rfl

/-- At the end of a text, roles are as in front of a space. -/
theorem exists_reads_none
    {ok : Lexing → Cell → Prop} {cells : List Cell} {state state' : Lexing}
    (h : Reads ok state cells (some ' ') state') :
    ∃ state'', Reads ok state cells none state'' := by
  induction cells generalizing state with
  | nil =>
      exact ⟨state, rfl⟩
  | cons cell rest ih =>
      obtain ⟨hok, hrole, hrest⟩ := h
      cases rest with
      | nil =>
          refine ⟨_, hok, ?_, rfl⟩
          rw [← hrole]
          exact step_none_role state cell.char
      | cons cell' rest =>
          obtain ⟨state'', hstate''⟩ := ih hrest
          exact ⟨state'', hok, hrole, hstate''⟩

/-- What stands in front of spaces at the end is read alike without them. -/
theorem exists_reads_of_append_spaces
    {ok : Lexing → Cell → Prop} {cells : List Cell} {state state' : Lexing}
    {text : Text} {n : Nat} (hcells : chars cells = text ++ spaces n)
    (h : Reads ok state cells none state') :
    ∃ middle back state'', cells = middle ++ back ∧ chars middle = text ∧
      chars back = spaces n ∧ Reads ok state middle none state'' := by
  obtain ⟨middle, back, rfl, hmiddle, hback⟩ := List.map_eq_append_iff.mp hcells
  obtain ⟨between, hread, -⟩ := reads_append.mp h
  cases back with
  | nil =>
      exact ⟨middle, [], between, rfl, hmiddle, hback, hread⟩
  | cons cell back =>
      have hchar : cell.char = ' ' := by
        have hmem : cell.char ∈ spaces n := by
          rw [← hback]
          simp
        exact List.eq_of_mem_replicate hmem
      rw [nextChar_cons, hchar] at hread
      obtain ⟨state'', hnone⟩ := exists_reads_none hread
      exact ⟨middle, cell :: back, state'', rfl, hmiddle, hback, hnone⟩

/-- Trimming keeps a calm reading and the gist. -/
theorem exists_reads_trimSpaces
    {cells : List Cell} {state : Lexing}
    (h : Reads calmly .plain cells none state) :
    ∃ cells' state', chars cells' = trimSpaces (chars cells) ∧
      gist cells' = gist cells ∧
      Reads calmly .plain cells' none state' := by
  obtain ⟨m, n, hspaces⟩ := exists_spaces_trimSpaces (chars cells)
  obtain ⟨front, rest, rfl, hfront, hrest⟩ :=
    List.map_eq_append_iff.mp hspaces
  obtain ⟨between, hreadFront, hreadRest⟩ := reads_append.mp h
  have hplain := eq_plain_of_reads_spaces hfront hreadFront
  subst hplain
  obtain ⟨middle, back, state', rfl, hmiddle, hback, hread⟩ :=
    exists_reads_of_append_spaces hrest hreadRest
  refine ⟨middle, state', hmiddle, ?_, hread⟩
  rw [gist_append, gist_append, gist_eq_nil_of_chars_eq_spaces hfront,
    gist_eq_nil_of_chars_eq_spaces hback]
  simp

end Trimming

end StylesheetPruning
