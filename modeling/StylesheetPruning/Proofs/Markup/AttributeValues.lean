import Mathlib.Data.Bool.AllAny
import StylesheetPruning.Markup.Reference

/-!
# Attribute values as they are written

Between quotes, an attribute value is written with references for its
ampersands and its quotes.

**Results.**
* `decode_encodeValue`: decoding undoes encoding.
* `encodeValue_cases`: an encoded value ends at no character of its own.
-/

namespace StylesheetPruning

section Encoding

/-- A character as it is written in an attribute value. -/
def encodeChar (c : Char) : Text :=
  if c = '&' then "&amp;".toList
  else if c = '"' then "&quot;".toList
  else [c]

/-- An attribute value as it is written between quotes. -/
def encodeValue (value : Text) : Text :=
  value.flatMap encodeChar

theorem decode_amp_append (rest : Text) :
    Reference.decode ("&amp;".toList ++ rest) = '&' :: Reference.decode rest := by
  have hclosed : closedReference? "amp".toList = some ['&'] := by
    decide +kernel
  have hname : Reference.behindAmpersand? ("amp;".toList ++ rest) =
      (closedReference? "amp".toList).map (fun value => (value, 4)) := rfl
  rw [hclosed] at hname
  exact Reference.decode_ampersand_of_some hname

theorem decode_quot_append (rest : Text) :
    Reference.decode ("&quot;".toList ++ rest) =
      '"' :: Reference.decode rest := by
  have hclosed : closedReference? "quot".toList = some ['"'] := by
    decide +kernel
  have hname : Reference.behindAmpersand? ("quot;".toList ++ rest) =
      (closedReference? "quot".toList).map (fun value => (value, 5)) := rfl
  rw [hclosed] at hname
  exact Reference.decode_ampersand_of_some hname

/-- Decoding undoes encoding. -/
theorem decode_encodeValue (value : Text) :
    Reference.decode (encodeValue value) = value := by
  induction value with
  | nil =>
      rfl
  | cons c value ih =>
      rw [encodeValue, List.flatMap_cons, ← encodeValue, encodeChar]
      split
      · next hc =>
          rw [decode_amp_append, ih, hc]
      · next hampersand =>
          split
          · next hc =>
              rw [decode_quot_append, ih, hc]
          · rw [List.singleton_append,
              Reference.decode_cons_of_ne _ hampersand, ih]

/-- No quote stands in an encoded value. -/
theorem encodeValue_cases
    {value : Text} (h : ∀ c ∈ value, c ≠ '\x00' ∧ c ≠ '\r') :
    ∀ c ∈ encodeValue value, c ≠ '"' ∧ c ≠ '\x00' ∧ c ≠ '\r' := by
  intro c hc
  obtain ⟨d, hd, hmem⟩ := List.mem_flatMap.mp hc
  rw [encodeChar] at hmem
  have hamp : ∀ c ∈ "&amp;".toList, c ≠ '"' ∧ c ≠ '\x00' ∧ c ≠ '\r' :=
    List.all_iff_forall_prop.mp rfl
  have hquot : ∀ c ∈ "&quot;".toList, c ≠ '"' ∧ c ≠ '\x00' ∧ c ≠ '\r' :=
    List.all_iff_forall_prop.mp rfl
  split at hmem
  · exact hamp c hmem
  · split at hmem
    · exact hquot c hmem
    · next hquote =>
        rw [List.mem_singleton.mp hmem]
        exact ⟨hquote, h d hd⟩

end Encoding

end StylesheetPruning
