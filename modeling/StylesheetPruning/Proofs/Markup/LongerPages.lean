import StylesheetPruning.Proofs.Markup.Contents
import StylesheetPruning.Proofs.Markup.LineBreaks

/-!
# Pages that go on

Wherever a page is cut, the tags that are complete before the cut are those
that the whole page begins with. A tag that the cut goes through is dropped
from the first part.

**Results.**
* `exists_ofPage_append`: the tags of a page are the first of a longer one.
* `ofPage_subset_append`: a longer page contains what the page contains.
-/

namespace StylesheetPruning

namespace StartTag

/-- A byte order mark is only looked for at the first character. -/
theorem dropByteOrderMark_append
    {page : Text} (h : page ≠ []) (page' : Text) :
    dropByteOrderMark (page ++ page') = dropByteOrderMark page ++ page' := by
  cases page with
  | nil =>
      exact absurd rfl h
  | cons c rest =>
      simp only [List.cons_append, dropByteOrderMark]
      split
      · rfl
      · rfl

/-- The tags of a page are the first tags of a page that goes on. -/
theorem exists_ofPage_append (page page' : Text) :
    ∃ tags, ofPage (page ++ page') = ofPage page ++ tags := by
  cases page with
  | nil =>
      exact ⟨ofPage page', rfl⟩
  | cons c rest =>
      have hmark := dropByteOrderMark_append (List.cons_ne_nil c rest) page'
      rw [ofPage, hmark, unifyLineBreaks, ← unified, unified_append,
        Reading.run_append]
      exact ⟨_, rfl⟩

end StartTag

namespace Inventory

/-- A longer page contains everything that the page contains. -/
theorem ofPage_subset_append (page page' : Text) :
    ofPage page ⊆ ofPage (page ++ page') := by
  obtain ⟨tags, htags⟩ := StartTag.exists_ofPage_append page page'
  have hkeep : ∀ tag ∈ StartTag.ofPage page,
      tag ∈ StartTag.ofPage (page ++ page') := by
    intro tag htag
    rw [htags]
    exact List.mem_append_left tags htag
  constructor
  · intro name hname
    obtain ⟨tag, htag, hadds⟩ := mem_elements_ofPage.mp hname
    exact mem_elements_ofPage.mpr ⟨tag, hkeep tag htag, hadds⟩
  · constructor
    · intro id hid
      obtain ⟨tag, htag, hadds⟩ := mem_ids_ofPage.mp hid
      exact mem_ids_ofPage.mpr ⟨tag, hkeep tag htag, hadds⟩
    · intro name hname
      obtain ⟨tag, htag, hadds⟩ := mem_classes_ofPage.mp hname
      exact mem_classes_ofPage.mpr ⟨tag, hkeep tag htag, hadds⟩

end Inventory

end StylesheetPruning
