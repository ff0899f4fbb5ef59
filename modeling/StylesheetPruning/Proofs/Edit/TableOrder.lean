import StylesheetPruning.Proofs.Edit.Joining
import StylesheetPruning.Proofs.Edit.PlusSigns

/-!
# Closing up under a reordered table

Of a table in any order, what counts is which substitutions stand in front of
the one for plus signs. They make one pass, then the plus signs are treated,
then the rest of the marks; no later round finds anything else to do.

**Results.**
* `closeUp_eq_closedAfter`: closing up is two passes with the plus signs
  between them.
* `closedAfter_append`: two texts are closed up apart unless a space meets a
  mark or a plus sign at the seam.
* `closedAfter_cons`, `closedAfter_space`, `closedAfter_space_before`,
  `closedAfter_behind`, `closedAfter_plus`, `closedAfter_between`: what becomes
  of the next characters of a text.
-/

namespace StylesheetPruning

/--
A pass for some substitutions, the substitution for plus signs, and a pass for
all marks.
-/
def closedAfter (early : List Substitution) (text : Text) : Text :=
  tighten looseSpaces (plusSigns.apply (tighten early text))

section Tables

/-- A table in which some substitutions stand in front of the plus signs. -/
structure Reordered (early late : List Substitution) : Prop where
  perm : (early ++ plusSigns :: late).Perm looseSpaces

namespace Reordered

variable {early late : List Substitution}

theorem subset (h : Reordered early late) :
    early ++ plusSigns :: late ⊆ looseSpaces :=
  h.perm.subset

theorem early_subset (h : Reordered early late) : early ⊆ looseSpaces :=
  (List.append_subset.mp h.subset).1

theorem late_subset (h : Reordered early late) : late ⊆ looseSpaces :=
  (List.cons_subset.mp (List.append_subset.mp h.subset).2).2

theorem not_mem (h : Reordered early late) :
    plusSigns ∉ early ∧ plusSigns ∉ late := by
  have hnodup : (looseSpaces.map Substitution.pattern).Nodup := by decide
  rw [← (h.perm.map Substitution.pattern).nodup_iff, List.map_append,
    List.map_cons] at hnodup
  obtain ⟨-, hlate, hdisjoint⟩ := List.nodup_append.mp hnodup
  refine ⟨fun hmem => ?_, fun hmem => ?_⟩
  · exact hdisjoint _ (List.mem_map_of_mem hmem) _ (by simp) rfl
  · exact (List.nodup_cons.mp hlate).1 (List.mem_map_of_mem hmem)

theorem looseBehind_iff (h : Reordered early late) (c : Char) :
    LooseBehind (early ++ late) c ↔ LooseBehind looseSpaces c := by
  have hmem := (h.perm.map Substitution.pattern).mem_iff (a := [c, ' '])
  rw [LooseBehind, LooseBehind, ← hmem]
  simp

theorem looseBefore_iff (h : Reordered early late) (c : Char) :
    LooseBefore (early ++ late) c ↔ LooseBefore looseSpaces c := by
  have hmem := (h.perm.map Substitution.pattern).mem_iff (a := [' ', c])
  rw [LooseBefore, LooseBefore, ← hmem]
  simp

theorem tighten_eq (h : Reordered early late) (text : Text) :
    tighten (early ++ late) text = tighten looseSpaces text :=
  tighten_congr h.looseBehind_iff h.looseBefore_iff text

end Reordered

/-- Every table has its substitution for plus signs somewhere. -/
theorem exists_reordered {table : List Substitution}
    (h : table.Perm looseSpaces) :
    ∃ early late, table = early ++ plusSigns :: late ∧ Reordered early late := by
  obtain ⟨early, late, rfl⟩ := List.append_of_mem (h.mem_iff.mpr plusSigns_mem)
  exact ⟨early, late, rfl, ⟨h⟩⟩

end Tables

section Rounds

variable {early late : List Substitution}

/-- A pass for all marks does what a pass in front of it would do. -/
theorem tighten_looseSpaces_tighten {table : List Substitution}
    (htable : table ⊆ looseSpaces) {text : Text} (h : SingleSpaced text) :
    tighten looseSpaces (tighten table text) = tighten looseSpaces text := by
  rw [tighten_tighten htable h]
  refine tighten_congr (fun c => ?_) (fun c => ?_) text
  · rw [looseBehind_append, or_iff_right_of_imp (LooseBehind.mono htable)]
  · rw [looseBefore_append, or_iff_right_of_imp (LooseBefore.mono htable)]

/-- One round is a pass, the plus signs, and a pass. -/
theorem Reordered.closeRound_eq (h : Reordered early late) {text : Text}
    (hspaced : SingleSpaced text) :
    closeRound (early ++ plusSigns :: late) text =
      tighten late (plusSigns.apply (tighten early text)) := by
  have hfirst := singleSpaced_tighten h.early_subset hspaced
  calc closeRound (early ++ plusSigns :: late) text
      = closeRound late (plusSigns.apply (closeRound early text)) := by
        rw [closeRound, List.foldl_append, List.foldl_cons]
        rfl
    _ = closeRound late (plusSigns.apply (tighten early text)) := by
        rw [closeRound_eq_tighten h.early_subset h.not_mem.1 hspaced]
    _ = tighten late (plusSigns.apply (tighten early text)) :=
        closeRound_eq_tighten h.late_subset h.not_mem.2
          (singleSpaced_plusSigns hfirst)

theorem Reordered.singleSpaced_closeRound (h : Reordered early late)
    {text : Text} (hspaced : SingleSpaced text) :
    SingleSpaced (closeRound (early ++ plusSigns :: late) text) := by
  rw [h.closeRound_eq hspaced]
  exact singleSpaced_tighten h.late_subset
    (singleSpaced_plusSigns (singleSpaced_tighten h.early_subset hspaced))

/-- A round does not change what closing up will leave. -/
theorem Reordered.closedAfter_closeRound (h : Reordered early late)
    {text : Text} (hspaced : SingleSpaced text) :
    closedAfter early (closeRound (early ++ plusSigns :: late) text) =
      closedAfter early text := by
  have hfirst := singleSpaced_tighten h.early_subset hspaced
  have hplus := singleSpaced_plusSigns hfirst
  have hround := singleSpaced_tighten h.late_subset hplus
  -- No plus sign with spaces on both sides is left to the second round.
  have hnone : ¬ plusSigns.pattern <:+: tighten early
      (tighten late (plusSigns.apply (tighten early text))) := by
    refine not_plusSigns_tighten h.early_subset hround ?_
    exact not_plusSigns_tighten h.late_subset hplus (not_plusSigns_apply hfirst)
  calc closedAfter early (closeRound (early ++ plusSigns :: late) text)
      = tighten looseSpaces (tighten early
          (tighten late (plusSigns.apply (tighten early text)))) := by
        rw [h.closeRound_eq hspaced, closedAfter, plusSigns.apply_eq_self hnone]
    _ = closedAfter early text := by
        rw [tighten_looseSpaces_tighten h.early_subset hround,
          tighten_looseSpaces_tighten h.late_subset hplus, closedAfter]

/-- Closing up is two passes with the plus signs between them. -/
theorem closeUp_eq_closedAfter (h : Reordered early late) {text : Text}
    (hspaced : SingleSpaced text) :
    closeUp (early ++ plusSigns :: late) text = closedAfter early text := by
  have hrounds : ∀ n text, SingleSpaced text →
      SingleSpaced ((closeRound (early ++ plusSigns :: late))^[n] text) ∧
        closedAfter early ((closeRound (early ++ plusSigns :: late))^[n] text) =
          closedAfter early text := by
    intro n
    induction n with
    | zero =>
        exact fun text htext => ⟨htext, rfl⟩
    | succ n ih =>
        intro text htext
        obtain ⟨hsingle, hsame⟩ := ih _ (h.singleSpaced_closeRound htext)
        rw [Function.iterate_succ_apply]
        exact ⟨hsingle, hsame.trans (h.closedAfter_closeRound htext)⟩
  obtain ⟨hsingle, hsame⟩ := hrounds text.length text hspaced
  rw [← closeUp_eq_iterate (Nat.le_refl _)] at hsingle hsame
  -- What is left is a fixed point of every substitution.
  have hfixed := apply_eq_self_of_closeRound
    (closeRound_closeUp (early ++ plusSigns :: late) text)
  have hpass : ∀ table ⊆ early ++ late,
      tighten table (closeUp (early ++ plusSigns :: late) text) =
        closeUp (early ++ plusSigns :: late) text := by
    intro table htable
    have hall : early ++ late ⊆ looseSpaces :=
      List.append_subset.mpr ⟨h.early_subset, h.late_subset⟩
    have hnot : plusSigns ∉ table := fun hmem =>
      (List.mem_append.mp (htable hmem)).elim h.not_mem.1 h.not_mem.2
    rw [← closeRound_eq_tighten (List.Subset.trans htable hall) hnot hsingle]
    refine closeRound_eq_self fun s hs => ?_
    refine s.not_pattern_of_apply_eq_self (hfixed s ?_)
    rcases List.mem_append.mp (htable hs) with hmem | hmem
    · exact List.mem_append_left _ hmem
    · exact List.mem_append_right _ (List.mem_cons_of_mem _ hmem)
  calc closeUp (early ++ plusSigns :: late) text
      = closedAfter early (closeUp (early ++ plusSigns :: late) text) := by
        rw [closedAfter, hpass early (List.subset_append_left _ _),
          hfixed plusSigns (by simp), ← h.tighten_eq,
          hpass _ (List.Subset.refl _)]
    _ = closedAfter early text := hsame

end Rounds

section Steps

variable {early : List Substitution}

@[simp] theorem closedAfter_nil : closedAfter early [] = [] := rfl

theorem ungapped_closedAfter (text : Text) :
    ungapped (closedAfter early text) = ungapped text := by
  rw [closedAfter, ungapped_tighten, ungapped_plusSigns, ungapped_tighten]

theorem head?_closedAfter_of_ne_space (early : List Substitution) {text : Text}
    (h : text.head? ≠ some ' ') :
    (closedAfter early text).head? = text.head? := by
  have hfirst := head?_tighten_of_ne_space early h
  have hplus := head?_plusSigns_of_ne_space (hfirst ▸ h)
  rw [closedAfter, head?_tighten_of_ne_space _ (hplus ▸ hfirst ▸ h), hplus, hfirst]

/-- What stands in front after a pass and the plus signs stood there before. -/
theorem head?_eq_space_of_passes (hearly : early ⊆ looseSpaces) {rest : Text}
    (h : SingleSpaced rest)
    (hhead : (plusSigns.apply (tighten early rest)).head? = some ' ') :
    rest.head? = some ' ' :=
  head?_eq_space_of_tighten
    (head?_eq_space_of_plusSigns (singleSpaced_tighten hearly h) hhead)

theorem head?_passes
    (early : List Substitution) {rest : Text} (h : rest.head? ≠ some ' ') :
    (plusSigns.apply (tighten early rest)).head? = rest.head? := by
  have hfirst := head?_tighten_of_ne_space early h
  rw [head?_plusSigns_of_ne_space (by rwa [hfirst]), hfirst]

theorem closedAfter_cons (hearly : early ⊆ looseSpaces) {c : Char} {rest : Text}
    (h : SingleSpaced rest) (hc : c ≠ ' ')
    (hmark : LooseBehind looseSpaces c → rest.head? ≠ some ' ') :
    closedAfter early (c :: rest) = c :: closedAfter early rest := by
  rw [closedAfter, tighten_cons_of_ne_space hc
    (fun hloose => hmark (hloose.mono hearly)), plusSigns_cons hc]
  refine tighten_cons_of_ne_space hc fun hloose hhead => ?_
  exact hmark hloose (head?_eq_space_of_passes hearly h hhead)

theorem closedAfter_space (hearly : early ⊆ looseSpaces) {rest : Text}
    (hhead : rest.head? ≠ some ' ')
    (hbefore : ∀ d ∈ rest.head?, ¬ LooseBefore looseSpaces d)
    (hplus : ¬ ['+', ' '] <+: rest) :
    closedAfter early (' ' :: rest) = ' ' :: closedAfter early rest := by
  have hsame := head?_passes early hhead
  rw [closedAfter, tighten_space
    (fun d hd hloose => hbefore d hd (hloose.mono hearly)) hhead,
    plusSigns_space (mt (plusAhead_of_tighten hearly hhead) hplus)]
  exact tighten_space (by rwa [hsame]) (by rwa [hsame])

theorem tighten_before_cons (hearly : early ⊆ looseSpaces) {d : Char}
    (hd : LooseBefore looseSpaces d) (rest : Text) :
    tighten early (d :: rest) = d :: tighten early rest :=
  tighten_cons_of_ne_space hd.mark.ne_space
    (fun hloose => absurd (hloose.mono hearly) hd.not_looseBehind)

/-- A space in front of a mark may be gone after the first pass. -/
theorem tighten_space_before_or (hearly : early ⊆ looseSpaces) {d : Char}
    (hd : LooseBefore looseSpaces d) (rest : Text) :
    tighten early (' ' :: d :: rest) = d :: tighten early rest ∨
      tighten early (' ' :: d :: rest) = ' ' :: d :: tighten early rest := by
  have hspace := hd.mark.ne_space
  by_cases hloose : LooseBefore early d
  · left
    rw [tighten_space_before hspace hloose, tighten_before_cons hearly hd]
  · right
    rw [tighten_space, tighten_before_cons hearly hd]
    · intro e he
      rw [← Option.some.inj he]
      exact hloose
    · intro hhead
      exact hspace (Option.some.inj hhead)

theorem closedAfter_before (hearly : early ⊆ looseSpaces) {d : Char}
    (hd : LooseBefore looseSpaces d) (rest : Text) :
    closedAfter early (d :: rest) = d :: closedAfter early rest := by
  rw [closedAfter, tighten_before_cons hearly hd,
    plusSigns_cons hd.mark.ne_space,
    tighten_before_cons (List.Subset.refl _) hd, closedAfter]

theorem not_plusAhead_of_mark {d : Char} (hd : Mark d) (rest : Text) :
    ¬ ['+', ' '] <+: d :: rest := by
  intro hprefix
  exact hd.ne_plus (List.cons_prefix_cons.mp hprefix).1.symm

theorem closedAfter_space_before (hearly : early ⊆ looseSpaces) {d : Char}
    (hd : LooseBefore looseSpaces d) (rest : Text) :
    closedAfter early (' ' :: d :: rest) = closedAfter early (d :: rest) := by
  have hspace := hd.mark.ne_space
  rw [closedAfter, closedAfter, tighten_before_cons hearly hd]
  rcases tighten_space_before_or hearly hd rest with hfirst | hfirst
  · rw [hfirst]
  · rw [hfirst, plusSigns_space (not_plusAhead_of_mark hd.mark _),
      plusSigns_cons hspace, tighten_space_before hspace hd]

/-- A space behind a mark may be gone after the first pass. -/
theorem tighten_behind_or
    (early : List Substitution) {c : Char} (hc : c ≠ ' ') {rest : Text}
    (hhead : rest.head? ≠ some ' ') :
    tighten early (c :: ' ' :: rest) = c :: tighten early rest ∨
      tighten early (c :: ' ' :: rest) = c :: ' ' :: tighten early rest := by
  by_cases hloose : LooseBehind early c
  · exact .inl (tighten_behind_space hc hloose hhead)
  · rw [tighten_cons_of_ne_space hc (fun h => absurd h hloose), tighten_cons,
      tightenOne]
    have hsame := head?_tighten_of_ne_space early hhead
    split
    · exact .inl rfl
    · rw [if_neg (fun hand => hhead (hsame ▸ hand.2))]
      exact .inr rfl

theorem closedAfter_behind (hearly : early ⊆ looseSpaces) {c : Char}
    (hc : LooseBehind looseSpaces c) {rest : Text}
    (hhead : rest.head? ≠ some ' ') (hplus : ¬ ['+', ' '] <+: rest) :
    closedAfter early (c :: ' ' :: rest) = c :: closedAfter early rest := by
  have hspace := hc.mark.ne_space
  have hsame := head?_passes early hhead
  rw [closedAfter, closedAfter]
  rcases tighten_behind_or early hspace hhead with hfirst | hfirst
  · rw [hfirst, plusSigns_cons hspace,
      tighten_cons_of_ne_space hspace (fun _ => by rwa [hsame])]
  · rw [hfirst, plusSigns_cons hspace,
      plusSigns_space (mt (plusAhead_of_tighten hearly hhead) hplus),
      tighten_behind_space hspace hc (by rwa [hsame])]

theorem tighten_plus (hearly : early ⊆ looseSpaces) (rest : Text) :
    tighten early ('+' :: rest) = '+' :: tighten early rest :=
  tighten_cons_of_ne_space (by decide)
    (fun hloose => absurd rfl (hloose.mono hearly).mark.ne_plus)

theorem tighten_space_plus (hearly : early ⊆ looseSpaces) (rest : Text) :
    tighten early (' ' :: '+' :: rest) = ' ' :: '+' :: tighten early rest := by
  rw [tighten_space, tighten_plus hearly]
  · intro d hd hloose
    exact (hloose.mono hearly).mark.ne_plus (Option.some.inj hd).symm
  · simp

theorem closedAfter_plusSign (hearly : early ⊆ looseSpaces) (rest : Text) :
    closedAfter early ('+' :: rest) = '+' :: closedAfter early rest := by
  rw [closedAfter, tighten_plus hearly, plusSigns_cons (by decide),
    tighten_plus (List.Subset.refl _), closedAfter]

theorem closedAfter_plus (hearly : early ⊆ looseSpaces) {rest : Text}
    (hhead : rest.head? ≠ some ' ')
    (hbefore : ∀ d ∈ rest.head?, ¬ LooseBefore looseSpaces d) :
    closedAfter early (' ' :: '+' :: ' ' :: rest) =
      '+' :: closedAfter early rest := by
  rw [closedAfter, tighten_space_plus hearly, tighten_space
    (fun d hd hloose => hbefore d hd (hloose.mono hearly)) hhead,
    plusSigns_around, tighten_plus (List.Subset.refl _), closedAfter]

/-- Between two marks both spaces of a plus sign go in any order. -/
theorem closedAfter_between (hearly : early ⊆ looseSpaces) {c d : Char}
    (hc : LooseBehind looseSpaces c) (hd : LooseBefore looseSpaces d)
    (rest : Text) :
    closedAfter early (c :: ' ' :: '+' :: ' ' :: d :: rest) =
      c :: '+' :: closedAfter early (d :: rest) := by
  have hall : looseSpaces ⊆ looseSpaces := List.Subset.refl _
  have hspace := hc.mark.ne_space
  have hspace' := hd.mark.ne_space
  have hhead : ∀ text : Text, ('+' :: text).head? ≠ some ' ' := by
    simp
  have hnot : ∀ text, ¬ ['+', ' '] <+: '+' :: d :: text := by
    intro text hprefix
    obtain ⟨-, htail⟩ := List.cons_prefix_cons.mp hprefix
    exact hspace' (List.cons_prefix_cons.mp htail).1.symm
  have htight : ∀ text, tighten looseSpaces (c :: '+' :: d :: text) =
      c :: '+' :: d :: tighten looseSpaces text := by
    intro text
    rw [tighten_cons_of_ne_space hspace (fun _ => hhead _), tighten_plus hall,
      tighten_before_cons hall hd]
  rw [closedAfter_before hearly hd, closedAfter, closedAfter]
  rcases tighten_behind_or early hspace (hhead (' ' :: d :: rest)) with
    hfirst | hfirst <;>
  rcases tighten_space_before_or hearly hd rest with hsecond | hsecond <;>
  rw [hfirst, tighten_plus hearly, hsecond, plusSigns_cons hspace]
  · rw [plusSigns_cons (by decide), plusSigns_cons hspace', htight]
  · rw [plusSigns_cons (by decide),
      plusSigns_space (not_plusAhead_of_mark hd.mark _), plusSigns_cons hspace',
      tighten_cons_of_ne_space hspace (fun _ => hhead _), tighten_plus hall,
      tighten_space_before hspace' hd, tighten_before_cons hall hd]
  · rw [plusSigns_space (hnot _), plusSigns_cons (by decide),
      plusSigns_cons hspace', tighten_behind_space hspace hc (hhead _),
      tighten_plus hall, tighten_before_cons hall hd]
  · rw [plusSigns_around, plusSigns_cons hspace', htight]

end Steps

section Appending

variable {early : List Substitution}

/-- A mark that takes a space behind it is the start of a text of its own. -/
theorem closedAfter_append_behind (hearly : early ⊆ looseSpaces) {c : Char}
    (hc : LooseBehind looseSpaces c) (front rest : Text) :
    closedAfter early (front ++ c :: rest) =
      closedAfter early front ++ closedAfter early (c :: rest) := by
  have hspace := hc.mark.ne_space
  have hpass : ∀ table ⊆ looseSpaces, ∀ front back : Text,
      back.head? = some c →
        tighten table (front ++ back) = tighten table front ++ tighten table back := by
    intro table htable front back hhead
    refine tighten_append (fun _ => ⟨?_, ?_⟩) (fun _ _ _ => ?_)
    · rw [hhead]
      exact fun heq => hspace (Option.some.inj heq)
    · intro d hd hloose
      rw [hhead] at hd
      rw [← Option.some.inj hd] at hloose
      exact (hloose.mono htable).not_looseBehind hc
    · rw [hhead]
      exact fun heq => hspace (Option.some.inj heq)
  have hne : (c :: rest).head? ≠ some ' ' := fun heq => hspace (Option.some.inj heq)
  have hfirst := head?_tighten_of_ne_space early hne
  have hsecond := head?_passes early hne
  have hplus : plusSigns.apply
      (tighten early front ++ tighten early (c :: rest)) =
        plusSigns.apply (tighten early front) ++
          plusSigns.apply (tighten early (c :: rest)) := by
    refine plusSigns_append (fun _ hprefix => ?_) (fun _ => by rwa [hfirst])
    obtain ⟨tail, htail⟩ := hprefix
    rw [← htail] at hfirst
    exact hc.mark.ne_plus (Option.some.inj hfirst).symm
  rw [closedAfter, hpass early hearly front _ rfl, hplus,
    hpass _ (List.Subset.refl _) _ _ hsecond, closedAfter, closedAfter]

/-- Two texts are closed up apart unless a space meets something at the seam. -/
theorem closedAfter_append (hearly : early ⊆ looseSpaces) {front back : Text}
    {c : Char} (hlast : front.getLast? = some c) (hspace : c ≠ ' ')
    (hc : ¬ LooseBehind looseSpaces c) (hplus : ¬ [' ', '+'] <:+ front) :
    closedAfter early (front ++ back) =
      closedAfter early front ++ closedAfter early back := by
  have hpass : ∀ table ⊆ looseSpaces, ∀ front back : Text,
      front.getLast? = some c →
        tighten table (front ++ back) = tighten table front ++ tighten table back := by
    intro table htable front back hlast
    refine tighten_append (fun heq => ?_) (fun d hd hloose => ?_)
    · rw [hlast] at heq
      exact absurd (Option.some.inj heq) hspace
    · rw [hlast] at hd
      rw [← Option.some.inj hd] at hloose
      exact absurd (hloose.mono htable) hc
  have hfirst := getLast?_tighten early hspace hlast
  have happly : plusSigns.apply (tighten early front ++ tighten early back) =
      plusSigns.apply (tighten early front) ++
        plusSigns.apply (tighten early back) := by
    refine plusSigns_append (fun heq => ?_) (fun hsuffix => ?_)
    · rw [hfirst] at heq
      exact absurd (Option.some.inj heq) hspace
    · exact absurd (plusBehind_of_tighten hearly hspace hlast hsuffix) hplus
  rw [closedAfter, hpass early hearly _ _ hlast, happly,
    hpass _ (List.Subset.refl _) _ _ (getLast?_plusSigns hspace hfirst),
    closedAfter, closedAfter]

theorem getLast?_closedAfter {text : Text} {c : Char} (hc : c ≠ ' ')
    (h : text.getLast? = some c) :
    (closedAfter early text).getLast? = some c :=
  getLast?_tighten _ hc (getLast?_plusSigns hc (getLast?_tighten _ hc h))

end Appending

end StylesheetPruning
