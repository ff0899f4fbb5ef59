import StylesheetPruning.Proofs.Edit.LooseSpaces

/-!
# Spaces around plus signs

The substitution for plus signs takes both spaces of a plus sign or none. In
`a + + b` the first plus sign takes the space that the second one needs.

**Results.**
* `not_plusSigns_apply`, `not_plusSigns_tighten`: after the substitution no
  plus sign has spaces on both sides, and no pass for single marks brings such
  a place back.
* `plusSigns_append`: two texts are treated apart unless a match reaches over
  the seam.
-/

namespace StylesheetPruning

section PlusSigns

theorem plusSigns_around (rest : Text) :
    plusSigns.apply (' ' :: '+' :: ' ' :: rest) = '+' :: plusSigns.apply rest :=
  plusSigns.apply_pattern_append rest

theorem plusSigns_cons {c : Char} (hc : c ≠ ' ') (rest : Text) :
    plusSigns.apply (c :: rest) = c :: plusSigns.apply rest := by
  refine plusSigns.apply_cons_of_no_match c rest ?_
  rw [List.isPrefixOf_iff_prefix]
  intro hprefix
  exact hc (List.cons_prefix_cons.mp hprefix).1.symm

theorem plusSigns_space {rest : Text} (h : ¬ ['+', ' '] <+: rest) :
    plusSigns.apply (' ' :: rest) = ' ' :: plusSigns.apply rest := by
  refine plusSigns.apply_cons_of_no_match ' ' rest ?_
  rw [List.isPrefixOf_iff_prefix]
  intro hprefix
  exact h (List.cons_prefix_cons.mp hprefix).2

theorem singleSpaced_plusSigns {text : Text} (h : SingleSpaced text) :
    SingleSpaced (plusSigns.apply text) :=
  (plusSigns.not_doubleSpace_apply rfl (by decide) h).1

theorem head?_eq_space_of_plusSigns {text : Text} (h : SingleSpaced text)
    (hhead : (plusSigns.apply text).head? = some ' ') : text.head? = some ' ' :=
  (plusSigns.not_doubleSpace_apply rfl (by decide) h).2 hhead

theorem ungapped_plusSigns (text : Text) :
    ungapped (plusSigns.apply text) = ungapped text :=
  (respaced_apply plusSigns_mem text).ungapped_eq

/-- A plus sign and a space in front of what is left were there before. -/
theorem plusAhead_of_plusSigns {rest : Text} (h : SingleSpaced rest)
    (hhead : rest.head? ≠ some ' ') (hplus : ['+', ' '] <+: plusSigns.apply rest) :
    ['+', ' '] <+: rest := by
  cases rest with
  | nil =>
      exact hplus
  | cons c tail =>
      have hc : c ≠ ' ' := fun heq => hhead (by rw [heq]; rfl)
      rw [plusSigns_cons hc] at hplus
      obtain ⟨rfl, hspace⟩ := List.cons_prefix_cons.mp hplus
      refine List.cons_prefix_cons.mpr ⟨rfl, ?_⟩
      rw [List.singleton_prefix_iff_head?_eq_some] at hspace ⊢
      exact head?_eq_space_of_plusSigns h.tail hspace

theorem plusAhead_of_tighten {table : List Substitution}
    (htable : table ⊆ looseSpaces) {rest : Text}
    (hhead : rest.head? ≠ some ' ') (hplus : ['+', ' '] <+: tighten table rest) :
    ['+', ' '] <+: rest := by
  cases rest with
  | nil =>
      exact hplus
  | cons c tail =>
      have hc : c = '+' := by
        have hsame := head?_tighten_of_ne_space table hhead
        obtain ⟨back, hback⟩ := hplus
        rw [← hback] at hsame
        exact (Option.some.inj hsame).symm
      subst hc
      rw [tighten_cons_of_ne_space (by decide)
        (fun hl => absurd rfl (LooseBehind.mark (hl.mono htable)).ne_plus)] at hplus
      obtain ⟨-, hspace⟩ := List.cons_prefix_cons.mp hplus
      refine List.cons_prefix_cons.mpr ⟨rfl, ?_⟩
      rw [List.singleton_prefix_iff_head?_eq_some] at hspace ⊢
      exact head?_eq_space_of_tighten hspace

/-- No plus sign keeps a space on both sides. -/
theorem not_plusSigns_apply {text : Text} (h : SingleSpaced text) :
    ¬ plusSigns.pattern <:+: plusSigns.apply text := by
  induction text using plusSigns.apply_induction with
  | nil =>
      decide
  | found rest ih =>
      have hrest : SingleSpaced rest :=
        h.of_part (List.suffix_append _ _).isInfix
      rw [plusSigns.apply_pattern_append, replacement_plusSigns,
        List.singleton_append, List.infix_cons_iff, not_or]
      refine ⟨fun hprefix => ?_, ih hrest⟩
      exact absurd (List.cons_prefix_cons.mp hprefix).1 (by decide)
  | kept c rest hmatch ih =>
      rw [plusSigns.apply_cons_of_no_match c rest hmatch, List.infix_cons_iff,
        not_or]
      refine ⟨fun hprefix => hmatch ?_, ih h.tail⟩
      obtain ⟨rfl, hplus⟩ := List.cons_prefix_cons.mp hprefix
      rw [List.isPrefixOf_iff_prefix]
      have hhead := (singleSpaced_cons.mp h).1 rfl
      exact List.cons_prefix_cons.mpr
        ⟨rfl, plusAhead_of_plusSigns h.tail hhead hplus⟩

/-- A pass brings no plus sign with a space on both sides. -/
theorem not_plusSigns_tighten {table : List Substitution}
    (htable : table ⊆ looseSpaces) {text : Text} (h : SingleSpaced text)
    (hnot : ¬ plusSigns.pattern <:+: text) :
    ¬ plusSigns.pattern <:+: tighten table text := by
  induction text with
  | nil =>
      exact hnot
  | cons c rest ih =>
      rw [List.infix_cons_iff, not_or] at hnot
      have hrest := ih h.tail hnot.2
      rw [tighten_cons, tightenOne]
      split
      · exact hrest
      · split
        · next hand =>
            have hc := (LooseBehind.mark (hand.1.mono htable)).ne_space
            rw [List.infix_cons_iff, not_or]
            refine ⟨fun hprefix => ?_, fun hwithin => ?_⟩
            · exact hc (List.cons_prefix_cons.mp hprefix).1.symm
            · exact hrest (hwithin.trans (List.tail_suffix _).isInfix)
        · rw [List.infix_cons_iff, not_or]
          refine ⟨fun hprefix => hnot.1 ?_, hrest⟩
          obtain ⟨rfl, hplus⟩ := List.cons_prefix_cons.mp hprefix
          have hhead := (singleSpaced_cons.mp h).1 rfl
          exact List.cons_prefix_cons.mpr
            ⟨rfl, plusAhead_of_tighten htable hhead hplus⟩

theorem head?_plusSigns_of_ne_space {text : Text}
    (h : text.head? ≠ some ' ') :
    (plusSigns.apply text).head? = text.head? := by
  cases text with
  | nil =>
      rfl
  | cons c rest =>
      rw [plusSigns_cons (fun hc => h (by rw [hc]; rfl))]
      rfl

/-- Two texts are treated apart unless a match reaches over the seam. -/
theorem plusSigns_append {front back : Text}
    (hspace : front.getLast? = some ' ' → ¬ ['+', ' '] <+: back)
    (hplus : [' ', '+'] <:+ front → back.head? ≠ some ' ') :
    plusSigns.apply (front ++ back) =
      plusSigns.apply front ++ plusSigns.apply back := by
  induction front using plusSigns.apply_induction with
  | nil =>
      rfl
  | found rest ih =>
      have hrest := ih
        (fun hlast => hspace (by rw [List.getLast?_append, hlast]; rfl))
        (fun hsuffix => hplus (hsuffix.trans (List.suffix_append _ _)))
      rw [List.append_assoc, plusSigns.apply_pattern_append, hrest,
        plusSigns.apply_pattern_append, List.append_assoc]
  | kept c rest hmatch ih =>
      have hmatch' : ¬ plusSigns.pattern.isPrefixOf (c :: (rest ++ back)) = true := by
        rw [List.isPrefixOf_iff_prefix, pattern_plusSigns] at hmatch ⊢
        intro hwhole
        obtain ⟨rfl, hfirst⟩ := List.cons_prefix_cons.mp hwhole
        -- The match begins in front of the seam and ends behind it.
        cases rest with
        | nil =>
            exact hspace rfl hfirst
        | cons d tail =>
            obtain ⟨rfl, hsecond⟩ := List.cons_prefix_cons.mp hfirst
            cases tail with
            | nil =>
                rw [List.singleton_prefix_iff_head?_eq_some] at hsecond
                exact hplus (List.suffix_refl _) hsecond
            | cons e tail =>
                obtain ⟨rfl, -⟩ := List.cons_prefix_cons.mp hsecond
                exact hmatch ⟨tail, rfl⟩
      have hrest : plusSigns.apply (rest ++ back) =
          plusSigns.apply rest ++ plusSigns.apply back := by
        refine ih (fun hlast => hspace ?_) (fun hsuffix => hplus ?_)
        · rw [List.getLast?_cons, hlast]
          rfl
        · exact hsuffix.trans (List.suffix_cons c rest)
      rw [List.cons_append, plusSigns.apply_cons_of_no_match c _ hmatch', hrest,
        plusSigns.apply_cons_of_no_match c rest hmatch]
      rfl

theorem plusSigns_concat {front : Text} {c : Char} (hc : c ≠ ' ') :
    plusSigns.apply (front ++ [c]) = plusSigns.apply front ++ [c] := by
  rw [plusSigns_append, plusSigns_cons hc, plusSigns.apply_nil]
  · intro _ hprefix
    exact absurd (List.cons_prefix_cons.mp hprefix).2 (by simp)
  · intro _ hhead
    exact hc (Option.some.inj hhead)

/-- A last character that is no space stays the last one. -/
theorem getLast?_plusSigns {text : Text} {c : Char} (hc : c ≠ ' ')
    (h : text.getLast? = some c) :
    (plusSigns.apply text).getLast? = some c := by
  obtain ⟨front, rfl⟩ := List.getLast?_eq_some_iff.mp h
  rw [plusSigns_concat hc]
  simp

/-- A plus sign and a space behind a text that a pass has gone over. -/
theorem plusBehind_of_tighten {table : List Substitution}
    (htable : table ⊆ looseSpaces) {text : Text} {c : Char} (hc : c ≠ ' ')
    (hlast : text.getLast? = some c) (h : [' ', '+'] <:+ tighten table text) :
    [' ', '+'] <:+ text := by
  obtain ⟨front, rfl⟩ := List.getLast?_eq_some_iff.mp hlast
  have hplus : c = '+' := by
    have hkept := getLast?_tighten table hc hlast
    obtain ⟨passed, hpassed⟩ := h
    rw [← hpassed] at hkept
    simpa using hkept.symm
  subst hplus
  have hone : tighten table (front ++ ['+']) = tighten table front ++ ['+'] := by
    rw [tighten_append, tighten_cons_of_ne_space hc (fun _ => by simp)]
    · rfl
    · intro _
      refine ⟨by simp, fun d hd hloose => ?_⟩
      exact (hloose.mono htable).mark.ne_plus (Option.some.inj hd).symm
    · intro _ _ _
      simp
  obtain ⟨passed, hpassed⟩ := h
  have hfront : tighten table front = passed ++ [' '] := by
    have hcut : (passed ++ [' ']) ++ ['+'] = tighten table front ++ ['+'] := by
      rw [← hone, ← hpassed]
      simp
    exact (List.append_inj_left' hcut rfl).symm
  cases hlast' : front.getLast? with
  | none =>
      rw [List.getLast?_eq_none_iff.mp hlast'] at hfront
      simp at hfront
  | some d =>
      have hd : d = ' ' := by
        by_cases hd : d = ' '
        · exact hd
        · have hkept := getLast?_tighten table hd hlast'
          rw [hfront] at hkept
          simpa using hkept.symm
      obtain ⟨start, rfl⟩ := List.getLast?_eq_some_iff.mp hlast'
      exact ⟨start, by rw [hd]; simp⟩

end PlusSigns

end StylesheetPruning
