import StylesheetPruning.Text.Basic

/-!
# Edits

An edit replaces a span of a text. Several edits are applied to one buffer,
last offset first, so that no edit moves the text another one points at.

**Order.** Edits are sorted by falling start, then by falling end; edits with
equal spans keep their order.

**Acceptance.** An edit is skipped when its span is inverted, when it reaches
into the span of an edit that was applied before, or when one of its ends is
not a character boundary.
-/

namespace StylesheetPruning

/-- Replace a span by a text. -/
structure Edit where
  span : Span
  replacement : Text
deriving Repr, DecidableEq

namespace Edit

/-- Delete a span. -/
def delete (span : Span) : Edit :=
  ⟨span, []⟩

/-- Whether the first edit may be applied before the second. -/
def mayPrecede (e e' : Edit) : Bool :=
  e'.span.start < e.span.start ||
    (e.span.start = e'.span.start && e'.span.stop ≤ e.span.stop)

/-- Put an edit in front of the first one that it may precede. -/
def insertOrdered (e : Edit) : List Edit → List Edit
  | [] => [e]
  | first :: rest =>
      if e.mayPrecede first then e :: first :: rest
      else first :: insertOrdered e rest

/-- Edits in the order in which they are applied. -/
def ordered (edits : List Edit) : List Edit :=
  edits.foldr insertOrdered []

/-- A text under edits, and the start of the last edit that was applied. -/
structure Buffer where
  text : Text
  floor : Nat
deriving Repr, DecidableEq

/-- Apply an edit to a buffer, if it fits. -/
def Buffer.apply (buffer : Buffer) (e : Edit) : Buffer :=
  if e.span.start ≤ e.span.stop ∧ e.span.stop ≤ buffer.floor then
    match splitAt? buffer.text e.span.start with
    | none => buffer
    | some (left, rest) =>
        match splitAt? rest e.span.length with
        | none => buffer
        | some (_, right) =>
            ⟨left ++ (e.replacement ++ right), e.span.start⟩
  else
    buffer

/-- Apply edits to a text. -/
def applyAll (text : Text) (edits : List Edit) : Text :=
  ((ordered edits).foldl Buffer.apply ⟨text, byteLength text⟩).text

theorem mem_insertOrdered {e x : Edit} {edits : List Edit} :
    x ∈ insertOrdered e edits ↔ x = e ∨ x ∈ edits := by
  induction edits with
  | nil => simp [insertOrdered]
  | cons first rest ih =>
      simp only [insertOrdered]
      split
      · simp
      · simp only [List.mem_cons, ih]
        constructor
        · rintro (h | h | h)
          · exact .inr (.inl h)
          · exact .inl h
          · exact .inr (.inr h)
        · rintro (h | h | h)
          · exact .inr (.inl h)
          · exact .inl h
          · exact .inr (.inr h)

/-- Ordering neither adds nor loses an edit. -/
theorem mem_ordered {x : Edit} {edits : List Edit} :
    x ∈ ordered edits ↔ x ∈ edits := by
  induction edits with
  | nil => simp [ordered]
  | cons e rest ih =>
      have h : ordered (e :: rest) = insertOrdered e (ordered rest) := rfl
      rw [h, mem_insertOrdered, ih, List.mem_cons]

/-- An edit that fits replaces the text of its span. -/
theorem Buffer.apply_of_split {left middle right : Text} {floor : Nat}
    {replacement : Text}
    (h : byteLength left + byteLength middle ≤ floor) :
    Buffer.apply ⟨left ++ (middle ++ right), floor⟩
        ⟨⟨byteLength left, byteLength left + byteLength middle⟩, replacement⟩ =
      ⟨left ++ (replacement ++ right), byteLength left⟩ := by
  have hlength : Span.length
      ⟨byteLength left, byteLength left + byteLength middle⟩ =
        byteLength middle := by
    simp [Span.length]
  simp only [Buffer.apply, hlength, splitAt?_append]
  rw [if_pos ⟨Nat.le_add_right _ _, h⟩]

/-- Without edits a text stays as it is. -/
@[simp] theorem applyAll_nil (text : Text) : applyAll text [] = text := rfl

end Edit

end StylesheetPruning
