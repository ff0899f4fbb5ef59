import StylesheetPruning.Proofs.Edit.Joining
import StylesheetPruning.Proofs.Stylesheet.Seams

/-!
# A space in front of a stylesheet

A space or a plus sign in front of a stylesheet belongs to its first passage.
It goes with that passage where a pass removes it, and stays otherwise, and it
makes no leaf empty. So texts that are one space apart stay so, and the passes
find the same empty rules in both.

**Results.**
* `pass_cons_idle`, `emptied_cons_idle`: a pass over a text with such a
  character in front.
* `SpaceApart.run`: a space in front does not matter to the passes.
-/

namespace StylesheetPruning

open EmptyRules

/-- A character that is read as it stands and is no fence. -/
def Idle (c : Char) : Prop :=
  (∀ next, Lexing.plain.step c next = (.plain, .code)) ∧ isFence c = false

theorem idle_space : Idle ' ' :=
  ⟨fun _ => rfl, rfl⟩

theorem idle_plus : Idle '+' :=
  ⟨fun _ => rfl, rfl⟩

/-- Whether the first passage is an empty rule. -/
def Outline.startsEmpty (outline : Outline) : Bool :=
  match outline.passages with
  | .leaf list inner :: _ => (Leaf.mk 0 list inner).isEmpty
  | _ => false

/-- A cell in front goes with an empty rule, and stays otherwise. -/
theorem Outline.rewritten_cons
    {cell : Cell} (hcell : cell.isFence = false) (outline : Outline) :
    rewritten Leaf.swept (cons cell outline) =
      if outline.startsEmpty then rewritten Leaf.swept outline
      else cell :: rewritten Leaf.swept outline := by
  obtain ⟨passages, rest⟩ := outline
  simp only [cons, hcell, Bool.false_eq_true, if_false, rewritten]
  cases passages with
  | nil =>
      rfl
  | cons passage others =>
      cases passage with
      | run body fence =>
          rw [rewrite, rewrite, rewrite_eq placeless_swept others _ 0,
            rewrite_eq placeless_swept others
              (0 + width body + fence.utf8Size) 0]
          rfl
      | leaf list inner =>
          rw [rewrite, rewrite, rewrite_eq placeless_swept others _ 0,
            rewrite_eq placeless_swept others
              (0 + width list + width inner + 2) 0]
          by_cases hempty : (inner.flatMap Cell.masked).all isSpace = true
          · simp [startsEmpty, Leaf.swept, Leaf.isEmpty, hempty]
          · simp [startsEmpty, Leaf.swept, Leaf.isEmpty, Leaf.cells, hempty]

/-- A cell in front makes no leaf empty, and fills none. -/
theorem Outline.map_leaves_cons
    {cell : Cell} (hcell : cell.isFence = false) (outline : Outline) :
    (cons cell outline).leaves.map (fun leaf => if leaf.isEmpty then 1 else 0) =
        outline.leaves.map (fun leaf => if leaf.isEmpty then 1 else 0) ∧
      (cons cell outline).startsEmpty = outline.startsEmpty := by
  have hleaves := map_leavesFrom placeless_isEmpty
  obtain ⟨passages, rest⟩ := outline
  simp only [cons, hcell, Bool.false_eq_true, if_false, leaves]
  cases passages with
  | nil =>
      exact ⟨rfl, rfl⟩
  | cons passage others =>
      cases passage with
      | run body fence =>
          refine ⟨?_, rfl⟩
          simp only [leavesFrom]
          exact hleaves others _ _
      | leaf list inner =>
          refine ⟨?_, rfl⟩
          simp only [leavesFrom, List.map_cons]
          exact congrArg _ (hleaves others _ _)

/-- Whether a text begins with an empty rule. -/
def startsEmpty (text : Text) : Bool :=
  (Outline.ofCells (annotate .plain text).2).startsEmpty

section Idle

variable {c : Char}

theorem annotate_cons_idle (hc : Idle c) (text : Text) :
    (annotate .plain (c :: text)).2 = codeCell c :: (annotate .plain text).2 := by
  rw [annotate_cons, hc.1]
  rfl

theorem isFence_codeCell_idle (hc : Idle c) : (codeCell c).isFence = false := by
  simp [Cell.isFence, codeCell, hc.2]

/-- An idle character in front goes with an empty rule, and stays otherwise. -/
theorem pass_cons_idle (hc : Idle c) (text : Text) :
    pass (c :: text) =
      if startsEmpty text then pass text else c :: pass text := by
  rw [pass_eq, annotate_cons_idle hc, Outline.ofCells_cons,
    Outline.rewritten_cons (isFence_codeCell_idle hc), startsEmpty,
    pass_eq text]
  split
  · rfl
  · rfl

theorem emptied_cons_idle (hc : Idle c) (text : Text) :
    emptied (c :: text) = emptied text := by
  rw [emptied_eq, annotate_cons_idle hc, Outline.ofCells_cons,
    (Outline.map_leaves_cons (isFence_codeCell_idle hc) _).1, ← emptied_eq]

theorem startsEmpty_cons_idle (hc : Idle c) (text : Text) :
    startsEmpty (c :: text) = startsEmpty text := by
  rw [startsEmpty, annotate_cons_idle hc, Outline.ofCells_cons]
  exact (Outline.map_leaves_cons (isFence_codeCell_idle hc) _).2

end Idle

namespace SpaceApart

variable {text text' : Text}

theorem startsEmpty_eq (h : SpaceApart text text') :
    startsEmpty text = startsEmpty text' := by
  induction h with
  | same =>
      rfl
  | left text =>
      exact startsEmpty_cons_idle idle_space text
  | right text =>
      exact (startsEmpty_cons_idle idle_space text).symm
  | plus _ ih =>
      rw [startsEmpty_cons_idle idle_plus, startsEmpty_cons_idle idle_plus, ih]

theorem emptied_eq (h : SpaceApart text text') :
    emptied text = emptied text' := by
  induction h with
  | same =>
      rfl
  | left text =>
      exact emptied_cons_idle idle_space text
  | right text =>
      exact (emptied_cons_idle idle_space text).symm
  | plus _ ih =>
      rw [emptied_cons_idle idle_plus, emptied_cons_idle idle_plus, ih]

theorem pass_space (text : Text) :
    SpaceApart (pass (' ' :: text)) (pass text) := by
  rw [pass_cons_idle idle_space]
  split
  · exact .same _
  · exact .left _

theorem pass (h : SpaceApart text text') :
    SpaceApart (pass text) (pass text') := by
  induction h with
  | same =>
      exact .same _
  | left text =>
      exact pass_space text
  | right text =>
      exact (pass_space text).symm
  | plus h ih =>
      rw [pass_cons_idle idle_plus, pass_cons_idle idle_plus, h.startsEmpty_eq]
      split
      · exact ih
      · exact .plus ih

/-- A space in front does not matter to the passes. -/
theorem run (n : Nat) (h : SpaceApart text text') (removed : Nat) :
    SpaceApart (Sweep.run n ⟨text, removed⟩).text
        (Sweep.run n ⟨text', removed⟩).text ∧
      (Sweep.run n ⟨text, removed⟩).removed =
        (Sweep.run n ⟨text', removed⟩).removed := by
  induction n generalizing text text' removed with
  | zero =>
      exact ⟨h, rfl⟩
  | succ n ih =>
      rw [run_succ, run_succ]
      simp only [h.emptied_eq]
      exact ih h.pass _

end SpaceApart

end StylesheetPruning
