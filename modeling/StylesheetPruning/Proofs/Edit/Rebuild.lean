import StylesheetPruning.Edit.Basic

/-!
# Rebuilding a text from left to right

Edits are applied to one buffer, last offset first. When their spans follow
each other in the text, that is one pass over the text which copies what lies
between the spans and writes the replacements.

**Relation.** `Rebuilt n text edits text'` says that such a pass makes `text'`
of a text that stands at byte offset `n`.

**Results.** `applyAll_of_rebuilt`: applying edits is such a pass.
-/

namespace StylesheetPruning

/-- One pass over a text that stands at an offset, with edits in order. -/
inductive Rebuilt : Nat → Text → List Edit → Text → Prop
  | done (offset : Nat) (text : Text) :
      Rebuilt offset text [] text
  | keep {offset : Nat} {kept rest text' : Text} {edits : List Edit} :
      Rebuilt (offset + byteLength kept) rest edits text' →
      Rebuilt offset (kept ++ rest) edits (kept ++ text')
  | replace {offset : Nat} {old rest new text' : Text} {edits : List Edit} :
      old ≠ [] →
      Rebuilt (offset + byteLength old) rest edits text' →
      Rebuilt offset (old ++ rest)
        (⟨⟨offset, offset + byteLength old⟩, new⟩ :: edits) (new ++ text')

namespace Rebuilt

/-- Two passes, one behind the other. -/
theorem append
    {offset : Nat} {left right left' right' : Text} {edits edits' : List Edit}
    (hleft : Rebuilt offset left edits left')
    (hright : Rebuilt (offset + byteLength left) right edits' right') :
    Rebuilt offset (left ++ right) (edits ++ edits') (left' ++ right') := by
  induction hleft with
  | done offset text =>
      exact .keep hright
  | keep _ ih =>
      rw [List.append_assoc, List.append_assoc]
      refine .keep (ih ?_)
      rwa [byteLength_append, ← Nat.add_assoc] at hright
  | replace hold _ ih =>
      rw [List.append_assoc, List.append_assoc, List.cons_append]
      refine .replace hold (ih ?_)
      rwa [byteLength_append, ← Nat.add_assoc] at hright

/-- A pass that replaces a whole text. -/
theorem single
    (offset : Nat) {old : Text} (new : Text) (hold : old ≠ []) :
    Rebuilt offset old [⟨⟨offset, offset + byteLength old⟩, new⟩] new := by
  have h : Rebuilt offset (old ++ [])
      [⟨⟨offset, offset + byteLength old⟩, new⟩] (new ++ []) :=
    .replace hold (.done _ [])
  rwa [List.append_nil, List.append_nil] at h

/-- No edit of a pass starts in front of the text. -/
theorem le_start
    {offset : Nat} {text text' : Text} {edits : List Edit}
    (h : Rebuilt offset text edits text') :
    ∀ e ∈ edits, offset ≤ e.span.start := by
  induction h with
  | done =>
      simp
  | keep _ ih =>
      intro e he
      exact Nat.le_trans (Nat.le_add_right _ _) (ih e he)
  | replace _ _ ih =>
      intro e he
      rcases List.mem_cons.mp he with rfl | he
      · exact Nat.le_refl _
      · exact Nat.le_trans (Nat.le_add_right _ _) (ih e he)

end Rebuilt

namespace Edit

/-- An edit that starts in front of all others comes last. -/
theorem insertOrdered_of_lt
    {e : Edit} {edits : List Edit}
    (h : ∀ e' ∈ edits, e.span.start < e'.span.start) :
    insertOrdered e edits = edits ++ [e] := by
  induction edits with
  | nil =>
      rfl
  | cons first rest ih =>
      have hfirst := h first (by simp)
      have hrest := ih (fun e' he' => h e' (List.mem_cons_of_mem first he'))
      have hafter : e.mayPrecede first = false := by
        simp only [mayPrecede, Bool.or_eq_false_iff, Bool.and_eq_false_iff,
          decide_eq_false_iff_not]
        omega
      simp [insertOrdered, hafter, hrest]

/-- The edits of a pass are applied from the last to the first. -/
theorem ordered_of_rebuilt
    {offset : Nat} {text text' : Text} {edits : List Edit}
    (h : Rebuilt offset text edits text') :
    ordered edits = edits.reverse := by
  induction h with
  | done =>
      rfl
  | keep _ ih =>
      exact ih
  | @replace offset old rest new text' edits hold hrest ih =>
      have hpos : 0 < byteLength old :=
        Nat.pos_of_ne_zero (mt byteLength_eq_zero_iff.mp hold)
      have hinsert :
          insertOrdered ⟨⟨offset, offset + byteLength old⟩, new⟩
              (ordered edits) =
            ordered edits ++ [⟨⟨offset, offset + byteLength old⟩, new⟩] := by
        refine insertOrdered_of_lt ?_
        intro e he
        have hstart := hrest.le_start e (mem_ordered.mp he)
        show offset < e.span.start
        omega
      rw [List.reverse_cons, ← ih, ← hinsert]
      rfl

/-- The edits of a pass, last first, act behind a text in front of it. -/
theorem foldr_apply_of_rebuilt
    {offset : Nat} {text text' : Text} {edits : List Edit}
    (h : Rebuilt offset text edits text')
    (front : Text) (hfront : byteLength front = offset) :
    ∃ floor, offset ≤ floor ∧
      edits.foldr (fun e buffer => Buffer.apply buffer e)
          ⟨front ++ text, byteLength (front ++ text)⟩ =
        ⟨front ++ text', floor⟩ := by
  induction h generalizing front with
  | done offset text =>
      refine ⟨_, ?_, rfl⟩
      rw [byteLength_append]
      omega
  | @keep offset kept rest text' edits _ ih =>
      obtain ⟨floor, hfloor, hfold⟩ :=
        ih (front ++ kept) (by rw [byteLength_append, hfront])
      refine ⟨floor, by omega, ?_⟩
      rw [List.append_assoc] at hfold
      rw [hfold, List.append_assoc]
  | @replace offset old rest new text' edits hold _ ih =>
      obtain ⟨floor, hfloor, hfold⟩ :=
        ih (front ++ old) (by rw [byteLength_append, hfront])
      refine ⟨offset, Nat.le_refl _, ?_⟩
      rw [List.append_assoc, List.append_assoc] at hfold
      rw [List.foldr_cons, hfold]
      subst hfront
      exact Buffer.apply_of_split hfloor

/-- Applying edits is one pass over the text. -/
theorem applyAll_of_rebuilt
    {text text' : Text} {edits : List Edit}
    (h : Rebuilt 0 text edits text') : applyAll text edits = text' := by
  obtain ⟨floor, -, hfold⟩ := foldr_apply_of_rebuilt h [] rfl
  rw [applyAll, ordered_of_rebuilt h, List.foldl_reverse]
  exact congrArg Buffer.text hfold

end Edit

end StylesheetPruning
