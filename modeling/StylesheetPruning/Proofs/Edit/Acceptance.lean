import StylesheetPruning.Proofs.Edit.Rebuild
import StylesheetPruning.Proofs.Text.Encoding

/-!
# Edits that are applied in place

An edit that does not fit is skipped, and nothing tells that it was. Edits
that follow each other in the text all fit, and when every replacement is as
long as its span, no byte outside the spans moves.

**Skipping.** `Edit.skipped` lists the edits that do not fit when their turn
comes.

**Results.**
* `skipped_ordered_of_rebuilt`: a pass over the text skips no edit.
* `InPlace.of_rebuilt`: what a pass with replacements of equal length keeps.
-/

namespace StylesheetPruning

namespace Edit

section Skipping

/-- Whether an edit can be applied to a buffer. -/
def Buffer.Fits (buffer : Buffer) (e : Edit) : Prop :=
  e.span.start ≤ e.span.stop ∧ e.span.stop ≤ buffer.floor ∧
    IsBoundary buffer.text e.span.start ∧ IsBoundary buffer.text e.span.stop

instance (buffer : Buffer) (e : Edit) : Decidable (buffer.Fits e) :=
  inferInstanceAs (Decidable (_ ∧ _ ∧ _ ∧ _))

/-- An edit that does not fit changes nothing. -/
theorem Buffer.apply_of_not_fits {buffer : Buffer} {e : Edit}
    (h : ¬ buffer.Fits e) : buffer.apply e = buffer := by
  rw [Buffer.apply]
  split
  · next hspan =>
      split
      · rfl
      · next left rest hleft =>
          split
          · rfl
          · next middle right hmiddle =>
              obtain ⟨htext, hstart⟩ := splitAt?_eq_some_iff.mp hleft
              obtain ⟨rfl, hlength⟩ := splitAt?_eq_some_iff.mp hmiddle
              have hstop : byteLength (left ++ middle) = e.span.stop := by
                rw [byteLength_append, hstart, hlength, Span.length]
                omega
              refine absurd ⟨hspan.1, hspan.2, ?_, ?_⟩ h
              · rw [htext, ← hstart]
                exact isBoundary_append left _
              · rw [htext, ← List.append_assoc, ← hstop]
                exact isBoundary_append (left ++ middle) right
  · rfl

/-- The edits that do not fit when their turn comes. -/
def skipped : Buffer → List Edit → List Edit
  | _, [] => []
  | buffer, e :: rest =>
      if buffer.Fits e then skipped (buffer.apply e) rest
      else e :: skipped buffer rest

theorem skipped_append (buffer : Buffer) (edits edits' : List Edit) :
    skipped buffer (edits ++ edits') =
      skipped buffer edits ++
        skipped (edits.foldl Buffer.apply buffer) edits' := by
  induction edits generalizing buffer with
  | nil =>
      rfl
  | cons e rest ih =>
      rw [List.cons_append, skipped, skipped, List.foldl_cons]
      split
      · exact ih _
      · next hfits =>
          rw [ih, Buffer.apply_of_not_fits hfits]
          rfl

/-- The edits of a pass, last first, fit behind a text in front of it. -/
theorem skipped_reverse_of_rebuilt
    {offset : Nat} {text text' : Text} {edits : List Edit}
    (h : Rebuilt offset text edits text')
    (front : Text) (hfront : byteLength front = offset) :
    skipped ⟨front ++ text, byteLength (front ++ text)⟩ edits.reverse = [] := by
  induction h generalizing front with
  | done =>
      rfl
  | @keep offset kept rest text' edits _ ih =>
      have hkept := ih (front ++ kept) (by rw [byteLength_append, hfront])
      rwa [List.append_assoc] at hkept
  | @replace offset old rest new text' edits hold hrest ih =>
      have hothers := ih (front ++ old) (by rw [byteLength_append, hfront])
      obtain ⟨floor, hfloor, hfold⟩ :=
        foldr_apply_of_rebuilt hrest (front ++ old)
          (by rw [byteLength_append, hfront])
      rw [List.append_assoc, List.append_assoc] at hfold
      rw [List.append_assoc] at hothers
      subst hfront
      have hfits : Buffer.Fits ⟨front ++ (old ++ text'), floor⟩
          ⟨⟨byteLength front, byteLength front + byteLength old⟩, new⟩ := by
        refine ⟨Nat.le_add_right _ _, hfloor, isBoundary_append _ _, ?_⟩
        rw [← List.append_assoc, ← byteLength_append]
        exact isBoundary_append _ _
      rw [List.reverse_cons, skipped_append, hothers, List.foldl_reverse,
        hfold, List.nil_append, skipped, if_pos hfits]
      rfl

/-- A pass over the text skips no edit. -/
theorem skipped_ordered_of_rebuilt
    {text text' : Text} {edits : List Edit} (h : Rebuilt 0 text edits text') :
    skipped ⟨text, byteLength text⟩ (ordered edits) = [] := by
  rw [ordered_of_rebuilt h]
  exact skipped_reverse_of_rebuilt h [] rfl

end Skipping

/-- Whether the replacement of an edit is as long as what it replaces. -/
def KeepsLength (e : Edit) : Prop :=
  byteLength e.replacement = e.span.length

end Edit

namespace Rebuilt

variable {offset : Nat} {text text' : Text} {edits : List Edit}

/-- The spans of a pass lie in the text, on character boundaries. -/
theorem within
    (h : Rebuilt offset text edits text')
    (front : Text) (hfront : byteLength front = offset) :
    ∀ e ∈ edits, e.span.start ≤ e.span.stop ∧
      e.span.stop ≤ byteLength (front ++ text) ∧
      IsBoundary (front ++ text) e.span.start ∧
      IsBoundary (front ++ text) e.span.stop := by
  induction h generalizing front with
  | done =>
      simp
  | @keep offset kept rest text' edits _ ih =>
      have hkept := ih (front ++ kept) (by rw [byteLength_append, hfront])
      rwa [List.append_assoc] at hkept
  | @replace offset old rest new text' edits _ _ ih =>
      have hothers := ih (front ++ old) (by rw [byteLength_append, hfront])
      rw [List.append_assoc] at hothers
      subst hfront
      refine List.forall_mem_cons.mpr ⟨⟨Nat.le_add_right _ _, ?_,
        isBoundary_append _ _, ?_⟩, hothers⟩
      · simp only [byteLength_append]
        omega
      · rw [← List.append_assoc, ← byteLength_append]
        exact isBoundary_append _ _

/-- The spans of a pass follow each other. -/
theorem pairwise (h : Rebuilt offset text edits text') :
    edits.Pairwise (fun e e' => e.span.stop ≤ e'.span.start) := by
  induction h with
  | done =>
      exact .nil
  | keep _ ih =>
      exact ih
  | replace _ hrest ih =>
      exact .cons hrest.le_start ih

theorem byteLength_eq
    (h : Rebuilt offset text edits text')
    (hlength : ∀ e ∈ edits, e.KeepsLength) :
    byteLength text' = byteLength text := by
  induction h with
  | done =>
      rfl
  | keep _ ih =>
      rw [byteLength_append, byteLength_append, ih hlength]
  | @replace offset old rest new text' edits _ _ ih =>
      obtain ⟨hnew, hedits⟩ := List.forall_mem_cons.mp hlength
      simp only [Edit.KeepsLength, Span.length] at hnew
      rw [byteLength_append, byteLength_append, ih hedits, hnew]
      omega

/-- Every replacement of a pass stands in its span. -/
theorem slice?_span
    (h : Rebuilt offset text edits text')
    (hlength : ∀ e ∈ edits, e.KeepsLength)
    (front : Text) (hfront : byteLength front = offset) :
    ∀ e ∈ edits, slice? (front ++ text') e.span = some e.replacement := by
  induction h generalizing front with
  | done =>
      simp
  | @keep offset kept rest text' edits _ ih =>
      have hkept := ih hlength (front ++ kept)
        (by rw [byteLength_append, hfront])
      rwa [List.append_assoc] at hkept
  | @replace offset old rest new text' edits _ _ ih =>
      obtain ⟨hnew, hedits⟩ := List.forall_mem_cons.mp hlength
      simp only [Edit.KeepsLength, Span.length] at hnew
      have hothers := ih hedits (front ++ new)
        (by rw [byteLength_append, hfront]; omega)
      rw [List.append_assoc] at hothers
      refine List.forall_mem_cons.mpr ⟨?_, hothers⟩
      rw [slice?_eq_some_iff]
      exact ⟨front, text', by simp, hfront, by simp only; omega⟩

/-- A byte outside the spans of a pass stays where it is. -/
theorem getElem?_bytes
    (h : Rebuilt offset text edits text')
    (hlength : ∀ e ∈ edits, e.KeepsLength)
    (i : Nat) (hi : ∀ e ∈ edits, offset + i < e.span.start ∨ e.span.stop ≤ offset + i) :
    (bytes text')[i]? = (bytes text)[i]? := by
  induction h generalizing i with
  | done =>
      rfl
  | @keep offset kept rest text' edits _ ih =>
      rw [bytes_append, bytes_append]
      rcases Nat.lt_or_ge i (byteLength kept) with hlt | hge
      · rw [List.getElem?_append_left (by simpa using hlt),
          List.getElem?_append_left (by simpa using hlt)]
      · rw [List.getElem?_append_right (by simpa using hge),
          List.getElem?_append_right (by simpa using hge), length_bytes]
        refine ih hlength _ ?_
        intro e he
        have hspan := hi e he
        omega
  | @replace offset old rest new text' edits _ _ ih =>
      obtain ⟨hnew, hedits⟩ := List.forall_mem_cons.mp hlength
      obtain ⟨hfirst, hothers⟩ := List.forall_mem_cons.mp hi
      simp only [Edit.KeepsLength, Span.length] at hnew
      simp only at hfirst
      have hge : byteLength old ≤ i := by
        omega
      have hold : byteLength new = byteLength old := by
        omega
      rw [bytes_append, bytes_append,
        List.getElem?_append_right (by simpa [hold] using hge),
        List.getElem?_append_right (by simpa using hge), length_bytes,
        length_bytes, hold]
      refine ih hedits _ ?_
      intro e he
      have hspan := hothers e he
      omega

end Rebuilt

/-- Edits of a text that move nothing outside their spans. -/
structure InPlace (text : Text) (edits : List Edit) : Prop where
  /-- The spans lie in the text, on character boundaries. -/
  within : ∀ e ∈ edits, e.span.start ≤ e.span.stop ∧
    e.span.stop ≤ byteLength text ∧
    IsBoundary text e.span.start ∧ IsBoundary text e.span.stop
  /-- No two spans overlap. -/
  disjoint : edits.Pairwise (fun e e' => e.span.stop ≤ e'.span.start)
  /-- Every replacement is as long as its span. -/
  keepsLength : ∀ e ∈ edits, e.KeepsLength
  /-- No edit is skipped. -/
  applied : Edit.skipped ⟨text, byteLength text⟩ (Edit.ordered edits) = []
  /-- Every replacement stands in its span afterwards. -/
  written : ∀ e ∈ edits,
    slice? (Edit.applyAll text edits) e.span = some e.replacement
  /-- The text keeps its length. -/
  byteLength_eq : byteLength (Edit.applyAll text edits) = byteLength text
  /-- Every byte outside the spans stays where it is. -/
  outside : ∀ i, (∀ e ∈ edits, i < e.span.start ∨ e.span.stop ≤ i) →
    (bytes (Edit.applyAll text edits))[i]? = (bytes text)[i]?

theorem InPlace.of_rebuilt
    {text text' : Text} {edits : List Edit} (h : Rebuilt 0 text edits text')
    (hlength : ∀ e ∈ edits, e.KeepsLength) : InPlace text edits := by
  have happly := Edit.applyAll_of_rebuilt h
  refine ⟨h.within [] rfl, h.pairwise, hlength,
    Edit.skipped_ordered_of_rebuilt h, ?_, ?_, ?_⟩
  · rw [happly]
    exact h.slice?_span hlength [] rfl
  · rw [happly]
    exact h.byteLength_eq hlength
  · intro i hi
    rw [happly]
    refine h.getElem?_bytes hlength i ?_
    simpa using hi

end StylesheetPruning
