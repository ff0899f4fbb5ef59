import Mathlib.Data.List.Nodup
import StylesheetPruning.Proofs.Edit.Acceptance
import StylesheetPruning.Proofs.Edit.Deletion
import StylesheetPruning.Proofs.Text.Slicing

/-!
# Applying edits as one rebuild from left to right

A buffer changes under every edit, in length and in content. Whether the next
edit fits is decided on that buffer, yet it could be decided on the text as it
came in: in front of the last edit that was applied, the two are the same.

**Second definition.** `Edit.accepted` goes through sorted edits and looks at
the original text only. `Edit.leftToRight` copies the text between spans and
writes the replacements in between.

**Results.**
* `ordered_eq_mergeSort`: the order is that of a stable sort.
* `text_foldl_apply`: what a run of edits leaves of a buffer.
* `applyAll_eq_leftToRight`: applying any edits is one rebuild.
-/

namespace StylesheetPruning

namespace Edit

section Order

theorem mayPrecede_iff {e e' : Edit} :
    e.mayPrecede e' = true ↔
      e'.span.start < e.span.start ∨
        e.span.start = e'.span.start ∧ e'.span.stop ≤ e.span.stop := by
  simp [mayPrecede]

theorem mayPrecede_trans (e e' e'' : Edit)
    (h : e.mayPrecede e' = true) (h' : e'.mayPrecede e'' = true) :
    e.mayPrecede e'' = true := by
  rw [mayPrecede_iff] at h h' ⊢
  omega

theorem mayPrecede_total (e e' : Edit) :
    (e.mayPrecede e' || e'.mayPrecede e) = true := by
  rw [Bool.or_eq_true, mayPrecede_iff, mayPrecede_iff]
  omega

/-- Edits that may precede each other have one span. -/
theorem span_eq_of_mayPrecede {e e' : Edit}
    (h : e.mayPrecede e' = true) (h' : e'.mayPrecede e = true) :
    e.span = e'.span := by
  rw [mayPrecede_iff] at h h'
  obtain ⟨⟨start, stop⟩, new⟩ := e
  obtain ⟨⟨start', stop'⟩, new'⟩ := e'
  simp only [Span.mk.injEq] at h h' ⊢
  omega

/-- An edit is put behind those that it may not precede. -/
theorem insertOrdered_append {e : Edit} {front back : List Edit}
    (hfront : ∀ e' ∈ front, e.mayPrecede e' = false)
    (hback : ∀ e' ∈ back, e.mayPrecede e' = true) :
    insertOrdered e (front ++ back) = front ++ e :: back := by
  induction front with
  | nil =>
      cases back with
      | nil =>
          rfl
      | cons first back =>
          simp [insertOrdered, hback first (by simp)]
  | cons first front ih =>
      have hfirst := hfront first (by simp)
      have hrest := ih (fun e' he' => hfront e' (List.mem_cons_of_mem first he'))
      simp [insertOrdered, hfirst, hrest]

/-- The order in which edits are applied is that of a stable sort. -/
theorem ordered_eq_mergeSort (edits : List Edit) :
    ordered edits = edits.mergeSort mayPrecede := by
  induction edits with
  | nil =>
      simp [ordered]
  | cons e rest ih =>
      obtain ⟨front, back, hsort, hrest, hfront⟩ :=
        List.mergeSort_cons mayPrecede_trans mayPrecede_total e rest
      have hsorted :=
        List.pairwise_mergeSort mayPrecede_trans mayPrecede_total (e :: rest)
      rw [hsort, List.pairwise_append] at hsorted
      have hback := (List.pairwise_cons.mp hsorted.2.1).1
      rw [hsort, ← insertOrdered_append (by simpa using hfront) hback, ← hrest,
        ← ih]
      rfl

/-- Edits with different spans have one order. -/
theorem ordered_perm {edits edits' : List Edit} (h : edits'.Perm edits)
    (hspans : (edits.map Edit.span).Nodup) : ordered edits' = ordered edits := by
  have hsorted := List.pairwise_mergeSort mayPrecede_trans mayPrecede_total
  have hperm : (edits'.mergeSort mayPrecede).Perm (edits.mergeSort mayPrecede) :=
    (List.mergeSort_perm _ _).trans (h.trans (List.mergeSort_perm _ _).symm)
  have hmem : ∀ {e : Edit}, e ∈ edits'.mergeSort mayPrecede → e ∈ edits :=
    fun he => h.mem_iff.mp ((List.mergeSort_perm _ _).mem_iff.mp he)
  have hinj := List.inj_on_of_nodup_map hspans
  rw [ordered_eq_mergeSort, ordered_eq_mergeSort]
  refine hperm.eq_of_pairwise ?_ (hsorted edits') (hsorted edits)
  intro e e' he he' hle hle'
  exact hinj (hmem he) (hmem (hperm.mem_iff.mpr he')) (span_eq_of_mayPrecede hle hle')

end Order

section Acceptance

/--
Whether an edit is accepted in front of an offset: its span is not inverted,
ends there at the latest, and lies between character boundaries of the text.
-/
def Accepts (text : Text) (floor : Nat) (e : Edit) : Prop :=
  e.span.start ≤ e.span.stop ∧ e.span.stop ≤ floor ∧
    IsBoundary text e.span.start ∧ IsBoundary text e.span.stop

instance (text : Text) (floor : Nat) (e : Edit) :
    Decidable (Accepts text floor e) :=
  inferInstanceAs (Decidable (_ ∧ _ ∧ _ ∧ _))

/-- The edits that are accepted one after the other in front of an offset. -/
def accepted (text : Text) : Nat → List Edit → List Edit
  | _, [] => []
  | floor, e :: rest =>
      if Accepts text floor e then e :: accepted text e.span.start rest
      else accepted text floor rest

/-- Boundaries of a text are found without what follows it. -/
theorem isBoundary_append_iff {front back : Text} {n : Nat}
    (h : n ≤ byteLength front) :
    IsBoundary (front ++ back) n ↔ IsBoundary front n := by
  simp only [IsBoundary, Option.isSome_iff_exists, Prod.exists,
    splitAt?_eq_some_iff]
  constructor
  · rintro ⟨left, right, htext, rfl⟩
    obtain ⟨gap, rfl, -⟩ := exists_append_of_byteLength_le htext.symm h
    exact ⟨left, gap, rfl, rfl⟩
  · rintro ⟨left, right, rfl, rfl⟩
    exact ⟨left, right ++ back, by simp, rfl⟩

/-- An edit fits a buffer that begins like the text exactly when it is accepted. -/
theorem fits_iff (e : Edit) (front tail back : Text) :
    Buffer.Fits ⟨front ++ tail, byteLength front⟩ e ↔
      Accepts (front ++ back) (byteLength front) e := by
  have hiff : ∀ {n}, n ≤ byteLength front →
      (IsBoundary (front ++ tail) n ↔ IsBoundary (front ++ back) n) :=
    fun hn => (isBoundary_append_iff hn).trans (isBoundary_append_iff hn).symm
  simp only [Buffer.Fits, Accepts]
  constructor
  · rintro ⟨hspan, hstop, hfirst, hlast⟩
    exact ⟨hspan, hstop, (hiff (Nat.le_trans hspan hstop)).mp hfirst,
      (hiff hstop).mp hlast⟩
  · rintro ⟨hspan, hstop, hfirst, hlast⟩
    exact ⟨hspan, hstop, (hiff (Nat.le_trans hspan hstop)).mpr hfirst,
      (hiff hstop).mpr hlast⟩

/-- The text around the span of an edit that is accepted. -/
theorem Accepts.exists_around {e : Edit} {front back : Text}
    (h : Accepts (front ++ back) (byteLength front) e) :
    ∃ left middle right new, front = left ++ (middle ++ right) ∧
      e = ⟨⟨byteLength left, byteLength left + byteLength middle⟩, new⟩ ∧
      slice (front ++ back) ⟨e.span.stop, byteLength front⟩ = right := by
  obtain ⟨hspan, hstop, hfirst, hlast⟩ := h
  rw [isBoundary_append_iff (Nat.le_trans hspan hstop)] at hfirst
  rw [isBoundary_append_iff hstop] at hlast
  simp only [IsBoundary, Option.isSome_iff_exists, Prod.exists,
    splitAt?_eq_some_iff] at hfirst hlast
  obtain ⟨left, rest, hleft, hstart⟩ := hfirst
  obtain ⟨upto, right, hupto, hend⟩ := hlast
  obtain ⟨middle, rfl, rfl⟩ :=
    exists_append_of_byteLength_le (hleft.symm.trans hupto) (by omega)
  refine ⟨left, middle, right, e.replacement, hleft, ?_, ?_⟩
  · rw [← byteLength_append, hstart, hend]
  · rw [hupto, List.append_assoc]
    exact slice_append (left ++ middle) right back hend.symm
      (by rw [byteLength_append (left ++ middle)])

/-- No accepted edit reaches over the offset. -/
theorem stop_le_of_mem_accepted {text : Text} {edits : List Edit} {floor : Nat} :
    ∀ e ∈ accepted text floor edits, e.span.stop ≤ floor := by
  induction edits generalizing floor with
  | nil =>
      simp [accepted]
  | cons e rest ih =>
      rw [accepted]
      split
      · next h =>
          obtain ⟨hspan, hstop, -⟩ := h
          refine List.forall_mem_cons.mpr ⟨hstop, ?_⟩
          intro e' he'
          exact Nat.le_trans (ih e' he') (Nat.le_trans hspan hstop)
      · exact ih

end Acceptance

section Rebuilding

/--
The part of a text between two offsets with its edits, which follow each other:
what lies between the spans is copied, and each replacement is written in turn.
-/
def leftToRight (text : Text) (stop : Nat) : Nat → List Edit → Text
  | offset, [] => slice text ⟨offset, stop⟩
  | offset, e :: rest =>
      slice text ⟨offset, e.span.start⟩ ++
        (e.replacement ++ leftToRight text stop e.span.stop rest)

/-- Without edits the text is copied. -/
theorem leftToRight_nil (front back : Text) :
    leftToRight (front ++ back) (byteLength front) 0 [] = front :=
  slice_append [] front back rfl (by simp)

/-- The last edit of a pass, and the text behind it. -/
theorem leftToRight_append_singleton
    (text : Text) (stop offset : Nat) (edits : List Edit) (e : Edit) :
    leftToRight text stop offset (edits ++ [e]) =
      leftToRight text e.span.start offset edits ++
        (e.replacement ++ slice text ⟨e.span.stop, stop⟩) := by
  induction edits generalizing offset with
  | nil =>
      rfl
  | cons first rest ih =>
      simp only [List.cons_append, leftToRight, ih, List.append_assoc]

/-- A run of edits rebuilds the front of a buffer, and leaves the rest alone. -/
theorem text_foldl_apply
    {text : Text} (edits : List Edit) {front back : Text}
    (htext : text = front ++ back) (tail : Text) :
    (edits.foldl Buffer.apply ⟨front ++ tail, byteLength front⟩).text =
      leftToRight text (byteLength front) 0
          (accepted text (byteLength front) edits).reverse ++ tail := by
  induction edits generalizing front back tail with
  | nil =>
      rw [htext, accepted, List.reverse_nil, leftToRight_nil]
      rfl
  | cons e rest ih =>
      rw [List.foldl_cons, accepted]
      split
      · next h =>
          rw [htext] at h
          obtain ⟨left, middle, right, new, rfl, rfl, hright⟩ :=
            h.exists_around
          have hleft : text = left ++ (middle ++ (right ++ back)) := by
            simp [htext]
          have hassoc : left ++ (middle ++ right) ++ tail =
              left ++ (middle ++ (right ++ tail)) := by
            simp
          rw [← htext] at hright
          rw [hassoc, Buffer.apply_of_split h.2.1, ih hleft, List.reverse_cons,
            leftToRight_append_singleton, hright]
          simp
      · next h =>
          rw [htext, ← fits_iff e front tail back] at h
          rw [Buffer.apply_of_not_fits h]
          exact ih htext tail

end Rebuilding

section Survival

/-- Spans in front of a text do not matter to it. -/
theorem without_eq_self_of_le {spans : List Span} {offset : Nat} {text : Text}
    (h : ∀ span ∈ spans, span.stop ≤ offset) :
    without spans offset text = text := by
  induction spans with
  | nil =>
      exact without_eq_self (by simp)
  | cons span spans ih =>
      obtain ⟨hspan, hspans⟩ := List.forall_mem_cons.mp h
      rw [without_cons_of_le hspan, ih hspans]

/-- A span behind a text does not matter to it. -/
theorem without_cons_of_ge {offset : Nat} {span : Span} {text : Text}
    (h : offset + byteLength text ≤ span.start) (spans : List Span) :
    without (span :: spans) offset text = without spans offset text := by
  induction text generalizing offset with
  | nil =>
      rfl
  | cons c rest ih =>
      rw [byteLength_cons, ← Nat.add_assoc] at h
      have hspan : span.covers offset = false := by
        have hsize := c.utf8Size_pos
        simp only [Span.covers, Bool.and_eq_false_iff, decide_eq_false_iff_not]
        omega
      simp only [without, List.any_cons, hspan, Bool.false_or, ih h]

/-- What no accepted span covers is copied, in order. -/
theorem without_accepted_sublist
    {text : Text} (edits : List Edit) {front back : Text}
    (htext : text = front ++ back) :
    (without ((accepted text (byteLength front) edits).map Edit.span) 0
        front).Sublist
      (leftToRight text (byteLength front) 0
        (accepted text (byteLength front) edits).reverse) := by
  induction edits generalizing front back with
  | nil =>
      rw [htext, accepted, List.reverse_nil, leftToRight_nil,
        without_eq_self (by simp)]
  | cons e rest ih =>
      rw [accepted]
      split
      · next h =>
          rw [htext] at h
          obtain ⟨left, middle, right, new, rfl, rfl, hright⟩ :=
            h.exists_around
          have hleft : text = left ++ (middle ++ (right ++ back)) := by
            simp [htext]
          have hbefore : ∀ span ∈
              (accepted text (byteLength left) rest).map Edit.span,
              span.stop ≤ byteLength left + byteLength middle := by
            rw [List.forall_mem_map]
            intro e he
            exact Nat.le_trans (stop_le_of_mem_accepted e he)
              (Nat.le_add_right _ _)
          rw [← htext] at hright
          rw [List.map_cons, List.reverse_cons, leftToRight_append_singleton,
            hright, without_append, Nat.zero_add,
            without_cons_of_ge (Nat.le_of_eq (Nat.zero_add _)),
            without_cons_append, without_eq_self_of_le hbefore]
          exact (ih hleft).append (List.sublist_append_right new right)
      · exact ih htext

end Survival

/--
Applying edits, whatever they are, is one pass from left to right. Its edits are
chosen on the original text: sorted stably by falling start and falling end, an
edit is accepted when it ends in front of the last one accepted. No character
outside of accepted spans is lost, and the order of edits with different spans
does not matter.
-/
theorem applyAll_eq_leftToRight (text : Text) (edits : List Edit) :
    let kept := accepted text (byteLength text) (edits.mergeSort mayPrecede)
    applyAll text edits = leftToRight text (byteLength text) 0 kept.reverse ∧
      (without (kept.map Edit.span) 0 text).Sublist (applyAll text edits) ∧
      ∀ edits' : List Edit, edits'.Perm edits → (edits.map Edit.span).Nodup →
        applyAll text edits' = applyAll text edits := by
  have htext : text = text ++ [] := by
    simp
  have hbuffer := text_foldl_apply (edits.mergeSort mayPrecede) htext []
  have happly : applyAll text edits =
      leftToRight text (byteLength text) 0
        (accepted text (byteLength text)
          (edits.mergeSort mayPrecede)).reverse := by
    rw [List.append_nil, List.append_nil] at hbuffer
    rw [applyAll, ordered_eq_mergeSort, hbuffer]
  refine ⟨happly, ?_, ?_⟩
  · rw [happly]
    exact without_accepted_sublist _ htext
  · intro edits' hperm hspans
    rw [applyAll, applyAll, ordered_perm hperm hspans]

/--
An edit that splits a character, an inverted one and one that overlaps are
skipped, in whichever order they come.
-/
theorem applyAll_eq_leftToRight_skipping :
    let text := "ab→cd".toList
    let edits : List Edit :=
      [⟨⟨0, 2⟩, "x".toList⟩, ⟨⟨1, 5⟩, "y".toList⟩, ⟨⟨3, 5⟩, "z".toList⟩,
        ⟨⟨6, 5⟩, "z".toList⟩, ⟨⟨5, 5⟩, "+".toList⟩]
    edits.reverse.Perm edits ∧ (edits.map Edit.span).Nodup ∧
      applyAll text edits = "ay+cd".toList ∧
      applyAll text edits.reverse = applyAll text edits := by
  intro text edits
  have hperm : edits.reverse.Perm edits := List.reverse_perm edits
  have hspans : (edits.map Edit.span).Nodup := by
    decide
  exact ⟨hperm, hspans, by decide,
    (applyAll_eq_leftToRight text edits).2.2 _ hperm hspans⟩

end Edit

end StylesheetPruning
