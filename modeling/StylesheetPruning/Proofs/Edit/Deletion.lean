import StylesheetPruning.Proofs.Edit.Rebuild

/-!
# Deleting spans

What is left of a text when spans are deleted can be said without a buffer:
the characters that no span covers.

**Results.** `without_of_rebuilt`: a pass that only deletes leaves what its
spans do not cover.
-/

namespace StylesheetPruning

/-- Whether an offset is in a span. -/
def Span.covers (span : Span) (offset : Nat) : Bool :=
  span.start ≤ offset && offset < span.stop

/-- The characters of a text at an offset that no span covers. -/
def without (spans : List Span) : Nat → Text → Text
  | _, [] => []
  | offset, c :: rest =>
      if spans.any (fun span => span.covers offset) then
        without spans (offset + c.utf8Size) rest
      else
        c :: without spans (offset + c.utf8Size) rest

section Without

variable {spans : List Span}

theorem without_append (spans : List Span) (offset : Nat) (text text' : Text) :
    without spans offset (text ++ text') =
      without spans offset text ++
        without spans (offset + byteLength text) text' := by
  induction text generalizing offset with
  | nil =>
      rfl
  | cons c rest ih =>
      rw [byteLength_cons, ← Nat.add_assoc]
      simp only [List.cons_append, without, ih]
      split <;> rfl

/-- Spans behind a text do not matter to it. -/
theorem without_eq_self {offset : Nat} {text : Text}
    (h : ∀ span ∈ spans, offset + byteLength text ≤ span.start) :
    without spans offset text = text := by
  induction text generalizing offset with
  | nil =>
      rfl
  | cons c rest ih =>
      rw [byteLength_cons, ← Nat.add_assoc] at h
      have hfirst : spans.any (fun span => span.covers offset) = false := by
        rw [List.any_eq_false]
        intro span hspan
        have hstart := h span hspan
        have hsize := c.utf8Size_pos
        simp only [Span.covers, Bool.and_eq_true, decide_eq_true_eq]
        omega
      rw [without, hfirst, ih h]
      rfl

/-- A span in front of a text does not matter to it. -/
theorem without_cons_of_le {offset : Nat} {span : Span} (h : span.stop ≤ offset)
    (spans : List Span) (text : Text) :
    without (span :: spans) offset text = without spans offset text := by
  induction text generalizing offset with
  | nil =>
      rfl
  | cons c rest ih =>
      have hspan : span.covers offset = false := by
        simp only [Span.covers, Bool.and_eq_false_iff, decide_eq_false_iff_not]
        omega
      simp only [without, List.any_cons, hspan, Bool.false_or,
        ih (Nat.le_trans h (Nat.le_add_right _ _))]

/-- Nothing is left of a text that lies in a span. -/
theorem without_eq_nil {offset : Nat} {text : Text} {span : Span}
    (hspan : span ∈ spans) (hstart : span.start ≤ offset)
    (hstop : offset + byteLength text ≤ span.stop) :
    without spans offset text = [] := by
  induction text generalizing offset with
  | nil =>
      rfl
  | cons c rest ih =>
      rw [byteLength_cons, ← Nat.add_assoc] at hstop
      have hfirst : spans.any (fun span => span.covers offset) = true := by
        rw [List.any_eq_true]
        refine ⟨span, hspan, ?_⟩
        have hsize := c.utf8Size_pos
        simp only [Span.covers, Bool.and_eq_true, decide_eq_true_eq]
        omega
      rw [without, if_pos hfirst]
      exact ih (Nat.le_trans hstart (Nat.le_add_right _ _)) hstop

/-- The span of a text in front deletes that text, and nothing behind it. -/
theorem without_cons_append (spans : List Span) (offset : Nat)
    (text text' : Text) :
    without (⟨offset, offset + byteLength text⟩ :: spans) offset
        (text ++ text') =
      without spans (offset + byteLength text) text' := by
  rw [without_append, without_cons_of_le (Nat.le_refl _),
    without_eq_nil (List.mem_cons_self ..) (Nat.le_refl _) (Nat.le_refl _),
    List.nil_append]

end Without

/-- A pass that only deletes leaves what its spans do not cover. -/
theorem without_of_rebuilt
    {offset : Nat} {text text' : Text} {edits : List Edit}
    (h : Rebuilt offset text edits text')
    {spans : List Span} (hspans : edits = spans.map Edit.delete) :
    text' = without spans offset text := by
  induction h generalizing spans with
  | done offset text =>
      obtain rfl : spans = [] := List.map_eq_nil_iff.mp hspans.symm
      exact (without_eq_self (by simp)).symm
  | @keep offset kept rest text' edits hrest ih =>
      have hkept : ∀ span ∈ spans, offset + byteLength kept ≤ span.start := by
        intro span hspan
        refine hrest.le_start (Edit.delete span) ?_
        rw [hspans]
        exact List.mem_map_of_mem hspan
      rw [without_append, without_eq_self hkept, ← ih hspans]
  | @replace offset old rest new text' edits hold hrest ih =>
      cases spans with
      | nil =>
          cases hspans
      | cons span spans =>
          obtain ⟨hedit, hedits⟩ := List.cons.inj hspans
          obtain ⟨rfl, rfl⟩ := Edit.mk.inj hedit
          rw [without_cons_append, ← ih hedits]
          rfl

end StylesheetPruning
