import Mathlib.Logic.Function.Iterate
import StylesheetPruning.Proofs.Edit.Respacing

/-!
# Normal spacing of texts that are put together

Closing up repeats a round until it changes nothing, so any number of further
rounds gives the same text. A round works on both sides of a character that no
pattern holds, and so does normal spacing.

**Gaps in front.** A gap in front of a text becomes one space or none. Whether
that space is in the way of a substitution depends on what follows: behind it,
as behind a run of plus signs, the two texts may drift apart by one space and
not further.

**Results.**
* `normalSpacing_append`: a closing brace parts a text for normal spacing.
* `spaceApart_normalSpacing`: a gap in front makes a difference of one space.
-/

namespace StylesheetPruning

section Rounds

variable {table : List Substitution}

/-- Stopping early is the same as going on. -/
theorem closeRounds_eq_iterate (n : Nat) (text : Text) :
    closeRounds table n text = (closeRound table)^[n] text := by
  induction n generalizing text with
  | zero =>
      rfl
  | succ n ih =>
      rw [closeRounds, Function.iterate_succ_apply]
      split
      · next hlength =>
          have hfixed := closeRound_eq_self_of_length table hlength
          rw [hfixed, Function.iterate_fixed hfixed]
      · exact ih _

theorem closeUp_eq_iterate {n : Nat} {text : Text} (h : text.length ≤ n) :
    closeUp table text = (closeRound table)^[n] text := by
  obtain ⟨k, rfl⟩ := Nat.exists_eq_add_of_le h
  have hiterate : closeUp table text =
      (closeRound table)^[text.length] text :=
    closeRounds_eq_iterate _ _
  have hfixed := closeRound_closeUp table text
  rw [Nat.add_comm, Function.iterate_add_apply, ← hiterate,
    Function.iterate_fixed hfixed]

/-- A round works on both sides of a character that no pattern holds. -/
theorem closeRound_append
    {c : Char} (hc : ∀ s ∈ table, c ∉ s.pattern) (front back : Text) :
    closeRound table (front ++ c :: back) =
      closeRound table front ++ c :: closeRound table back := by
  induction table generalizing front back with
  | nil =>
      rfl
  | cons s rest ih =>
      obtain ⟨hs, hrest⟩ := List.forall_mem_cons.mp hc
      have happend := s.apply_append hs front back
      simp only [closeRound, List.foldl_cons, happend] at ih ⊢
      exact ih hrest _ _

theorem closeUp_append
    {c : Char} (hc : ∀ s ∈ table, c ∉ s.pattern) (front back : Text) :
    closeUp table (front ++ c :: back) =
      closeUp table front ++ c :: closeUp table back := by
  have hiterate : ∀ n front back,
      (closeRound table)^[n] (front ++ c :: back) =
        (closeRound table)^[n] front ++ c :: (closeRound table)^[n] back := by
    intro n
    induction n with
    | zero =>
        exact fun _ _ => rfl
    | succ n ih =>
        intro front back
        rw [Function.iterate_succ_apply, closeRound_append hc, ih]
        rfl
  have hlength : (front ++ c :: back).length =
      front.length + (back.length + 1) := by
    simp
  rw [closeUp_eq_iterate (Nat.le_of_eq hlength), hiterate,
    closeUp_eq_iterate (Nat.le_add_right front.length (back.length + 1)),
    @closeUp_eq_iterate _ (front.length + (back.length + 1)) back (by omega)]

theorem collapseGaps_append
    {c : Char} (hc : isGap c = false) (front back : Text) :
    collapseGaps (front ++ c :: back) =
      collapseGaps front ++ c :: collapseGaps back := by
  induction front with
  | nil =>
      rw [List.nil_append, collapseGaps_cons, squeeze, hc]
      rfl
  | cons d front ih =>
      have hspace : c ≠ ' ' := by
        rintro rfl
        cases hc
      rw [List.cons_append, collapseGaps_cons, ih, collapseGaps_cons]
      simp only [squeeze]
      split
      · cases hfront : collapseGaps front with
        | nil =>
            simp [hspace]
        | cons e rest =>
            by_cases he : e = ' ' <;> simp [he]
      · rfl

/-- A closing brace parts a text for normal spacing. -/
theorem normalSpacing_append (front back : Text) :
    normalSpacing (front ++ '}' :: back) =
      normalSpacing front ++ '}' :: normalSpacing back := by
  have hpatterns : ∀ s ∈ looseSpaces, '}' ∉ s.pattern := by
    simp only [looseSpaces, List.mem_cons, List.not_mem_nil, or_false]
    rintro s (rfl | rfl | rfl | rfl | rfl) <;> decide
  rw [normalSpacing, normalSpacingWith, collapseGaps_append rfl,
    closeUp_append hpatterns]
  rfl

end Rounds

section Gaps

/-- No pattern begins with a mark in front of which a space is dropped. -/
theorem apply_cons_of_closesBefore
    {s : Substitution} (hs : s ∈ looseSpaces) {c : Char}
    (hc : closesBefore c = true) (rest : Text) :
    s.apply (c :: rest) = c :: s.apply rest := by
  refine s.apply_cons_of_no_match c rest ?_
  simp only [closesBefore, Bool.or_eq_true, decide_eq_true_eq] at hc
  simp only [looseSpaces, List.mem_cons, List.not_mem_nil, or_false] at hs
  rcases hs with rfl | rfl | rfl | rfl | rfl <;>
    rcases hc with (rfl | rfl) | rfl <;> simp [List.isPrefixOf]

/--
Texts that differ in one space at most, with nothing but plus signs in front of
it.
-/
inductive SpaceApart : Text → Text → Prop
  | same (text : Text) : SpaceApart text text
  | left (text : Text) : SpaceApart (' ' :: text) text
  | right (text : Text) : SpaceApart text (' ' :: text)
  | plus {text text' : Text} :
      SpaceApart text text' → SpaceApart ('+' :: text) ('+' :: text')

namespace SpaceApart

variable {text text' : Text}

theorem symm (h : SpaceApart text text') : SpaceApart text' text := by
  induction h with
  | same text =>
      exact .same text
  | left text =>
      exact .right text
  | right text =>
      exact .left text
  | plus _ ih =>
      exact .plus ih

theorem unspaced_eq (h : SpaceApart text text') :
    unspaced text = unspaced text' := by
  induction h with
  | same =>
      rfl
  | left =>
      rfl
  | right =>
      rfl
  | plus _ ih =>
      exact congrArg (List.cons '+') ih

/-- A space in front stays, or is taken with the mark behind it. -/
theorem apply_space {s : Substitution} (hs : s ∈ looseSpaces) (text : Text) :
    SpaceApart (s.apply (' ' :: text)) (s.apply text) := by
  have hkept := @apply_cons_of_closesBefore s hs
  generalize hn : text.length = n
  induction n using Nat.strongRecOn generalizing text with
  | _ n ih =>
      by_cases hmatch : s.pattern.isPrefixOf (' ' :: text) = true
      · obtain ⟨rest, hrest⟩ := List.isPrefixOf_iff_prefix.mp hmatch
        rw [← hrest, s.apply_pattern_append]
        simp only [looseSpaces, List.mem_cons, List.not_mem_nil, or_false] at hs
        rcases hs with rfl | rfl | rfl | rfl | rfl
        · cases hrest
        · obtain rfl : '{' :: rest = text := (List.cons.inj hrest).2
          rw [hkept (c := '{') rfl rest]
          exact .same _
        · obtain rfl : '(' :: rest = text := (List.cons.inj hrest).2
          rw [hkept (c := '(') rfl rest]
          exact .same _
        · cases hrest
        · -- The space behind the plus sign is now the one in front.
          obtain rfl : '+' :: ' ' :: rest = text := (List.cons.inj hrest).2
          rw [hkept (c := '+') rfl (' ' :: rest)]
          refine .plus (ih rest.length ?_ rest rfl).symm
          simp only [List.length_cons] at hn
          omega
      · rw [s.apply_cons_of_no_match ' ' text hmatch]
        exact .left _

theorem apply {s : Substitution} (hs : s ∈ looseSpaces)
    (h : SpaceApart text text') : SpaceApart (s.apply text) (s.apply text') := by
  induction h with
  | same =>
      exact .same _
  | left text =>
      exact apply_space hs text
  | right text =>
      exact (apply_space hs text).symm
  | @plus text text' _ ih =>
      rw [apply_cons_of_closesBefore hs rfl, apply_cons_of_closesBefore hs rfl]
      exact .plus ih

theorem closeRound {table : List Substitution}
    (htable : ∀ s ∈ table, s ∈ looseSpaces) (h : SpaceApart text text') :
    SpaceApart (closeRound table text) (closeRound table text') := by
  induction table generalizing text text' with
  | nil =>
      exact h
  | cons s rest ih =>
      obtain ⟨hs, hrest⟩ := List.forall_mem_cons.mp htable
      exact ih hrest (h.apply hs)

theorem closeUp (h : SpaceApart text text') :
    SpaceApart (closeUp looseSpaces text) (closeUp looseSpaces text') := by
  have hiterate : ∀ n {text text'}, SpaceApart text text' →
      SpaceApart ((StylesheetPruning.closeRound looseSpaces)^[n] text)
        ((StylesheetPruning.closeRound looseSpaces)^[n] text') := by
    intro n
    induction n with
    | zero =>
        exact fun h => h
    | succ n ih =>
        intro text text' h
        exact ih (h.closeRound (fun s hs => hs))
  rw [closeUp_eq_iterate (Nat.le_add_right text.length text'.length),
    closeUp_eq_iterate (Nat.le_add_left text'.length text.length)]
  exact hiterate _ h

end SpaceApart

theorem squeeze_squeeze
    {c d : Char} (hc : isGap c = true) (hd : isGap d = true) (rest : Text) :
    squeeze c (squeeze d rest) = squeeze d rest := by
  have hhead : (squeeze d rest).head? = some ' ' := by
    rw [squeeze, if_pos hd]
    split
    · next hrest =>
        exact hrest
    · rfl
  rw [squeeze, if_pos hc, if_pos hhead]

/-- A gap in front becomes one space or none. -/
theorem spaceApart_collapseGaps
    {gaps : Text} (h : ∀ c ∈ gaps, isGap c = true) (text : Text) :
    SpaceApart (collapseGaps (gaps ++ text)) (collapseGaps text) := by
  induction gaps with
  | nil =>
      exact .same _
  | cons c gaps ih =>
      obtain ⟨hc, hgaps⟩ := List.forall_mem_cons.mp h
      rw [List.cons_append, collapseGaps_cons]
      cases gaps with
      | nil =>
          rw [List.nil_append, squeeze, if_pos hc]
          split
          · exact .same _
          · exact .left _
      | cons d gaps =>
          rw [List.cons_append, collapseGaps_cons,
            squeeze_squeeze hc (hgaps d (by simp)), ← collapseGaps_cons,
            ← List.cons_append]
          exact ih hgaps

/-- A gap in front makes a difference of one space. -/
theorem spaceApart_normalSpacing
    {gaps : Text} (h : ∀ c ∈ gaps, isGap c = true) (text : Text) :
    SpaceApart (normalSpacing (gaps ++ text)) (normalSpacing text) :=
  (spaceApart_collapseGaps h text).closeUp

end Gaps

end StylesheetPruning
