import StylesheetPruning.Proofs.Selector.Crossing
import StylesheetPruning.Proofs.Selector.Pieces

/-!
# The subsections of a selector

A selector is cut at its combinators, what stands between them is cut again at
its marks, and every part is read once more from its own start. Each of these
walks begins outside of brackets and escapes. They agree: a walk over the whole
selector stands outside of both wherever one of the others begins or ends.

**Results.**
* `cutUp_cutExposed`: cutting at marks cuts where marks stand outside of
  brackets and escapes.
* `subsections_piecesOf`: a selector is cut into subsections.
* `Subsections.subsection`: what each of them is, in the whole selector.
* `Subsections.covered`: only combinators are left out between them.
-/

namespace StylesheetPruning

section CuttingUp

variable {p : Char → Bool}

/-- No character but the first of a text is exposed and satisfies a condition. -/
def HidesBehind (p : Char → Bool) (text : Text) : Prop :=
  ∀ glyph ∈ (Walk.start.glyphs text).tail, glyph.shows p = false

/--
The parts of a text between marks outside of brackets and escapes. A mark
belongs to the part behind it.
-/
inductive CutUp (p : Char → Bool) : Text → List Text → Prop
  | last {text : Text} : HidesBehind p text → CutUp p text [text]
  | next {front back : Text} {c : Char} {parts : List Text} :
      HidesBehind p front → p c = true → Crosses 0 front (c :: back) 0 →
      CutUp p (c :: back) parts → CutUp p (front ++ c :: back) (front :: parts)

theorem glyphs_of_found {text rest : Text} {found others : List Glyph}
    (htext : text = found.map Glyph.char)
    (h : Walk.start.glyphs (text ++ rest) = found ++ others) :
    Walk.start.glyphs text = found := by
  have htake := Walk.glyphs_take_append Walk.start text rest
  rw [← htake, h, htext, List.length_map, List.take_left]

/-- Behind its first character a text is cut at its marks. -/
theorem cutUp_consFirst
    {glyph : Glyph} {glyphs : List Glyph} {text : Text}
    (h : Walk.start.glyphs text = glyph :: glyphs) :
    CutUp p text ((consFirst glyph (cutWhere (Glyph.shows p) glyphs)).map
      (fun part => part.map Glyph.char)) := by
  induction hlength : text.length using Nat.strongRecOn
    generalizing text glyph glyphs with
  | ind n ih =>
  subst hlength
  have hchars := Walk.map_char_glyphs Walk.start text
  rw [h] at hchars
  by_cases hnone : ∀ glyph ∈ glyphs, Glyph.shows p glyph = false
  · have hnil : ∀ part ∈ ([] : List (List Glyph)),
        Marked (Glyph.shows p) part := by
      simp
    have hcut : cutWhere (Glyph.shows p) glyphs = [glyphs] := by
      simpa using cutWhere_append_flatten hnone hnil
    rw [hcut, consFirst, List.map_singleton, hchars]
    refine .last ?_
    rw [HidesBehind, h]
    exact hnone
  · have hshown : ∃ glyph ∈ glyphs, Glyph.shows p glyph = true := by
      simpa using hnone
    obtain ⟨found, ⟨c, exposed⟩, others, rfl, hmark, hfound⟩ :=
      exists_first_separator hshown
    obtain ⟨rfl, hc⟩ := Bool.and_eq_true_iff.mp hmark
    have hglyphs : Walk.start.glyphs text =
        (glyph :: found) ++ ⟨c, true⟩ :: others := h
    obtain ⟨back, rfl, hcross⟩ := exposes_of_glyphs hglyphs
    have hfront := glyphs_of_found rfl hglyphs
    have hback : Walk.start.glyphs (c :: back) = ⟨c, true⟩ :: others := by
      rw [hcross.glyphs_append, hfront] at hglyphs
      exact List.append_cancel_left hglyphs
    have hless : (c :: back).length <
        ((glyph :: found).map Glyph.char ++ c :: back).length := by
      simp only [List.length_append, List.length_cons, List.length_map]
      omega
    have hcut : cutWhere (Glyph.shows p) (found ++ ⟨c, true⟩ :: others) =
        found :: consFirst ⟨c, true⟩ (cutWhere (Glyph.shows p) others) := by
      have hrest : cutWhere (Glyph.shows p) (⟨c, true⟩ :: others) =
          [] :: consFirst ⟨c, true⟩ (cutWhere (Glyph.shows p) others) := by
        rw [cutWhere_cons, if_pos hmark]
      simpa using cutWhere_append hfound hrest
    have hhides : HidesBehind p ((glyph :: found).map Glyph.char) := by
      rw [HidesBehind, hfront]
      exact hfound
    rw [hcut, consFirst, List.map_cons]
    exact .next hhides hc hcross (ih _ hless hback rfl)

/-- Cutting at marks cuts where marks stand outside of brackets and escapes. -/
theorem cutUp_cutExposed (p : Char → Bool) (text : Text) :
    CutUp p text (cutExposed p text) := by
  rw [cutExposed]
  cases hglyphs : Walk.start.glyphs text with
  | nil =>
      have hnil : text = [] := by
        rw [← Walk.map_char_glyphs Walk.start text, hglyphs]
        rfl
      subst hnil
      exact .last (by simp [HidesBehind, Walk.glyphs])
  | cons glyph glyphs =>
      have hbehind := cutUp_consFirst (p := p) hglyphs
      rw [cutWhere_cons]
      split
      · next hmark =>
          obtain ⟨c, exposed⟩ := glyph
          obtain ⟨rfl, hc⟩ := Bool.and_eq_true_iff.mp hmark
          have hfirst : Walk.start.glyphs text = [] ++ ⟨c, true⟩ :: glyphs :=
            hglyphs
          obtain ⟨back, rfl, hcross⟩ := exposes_of_glyphs hfirst
          exact .next (by simp [HidesBehind, Walk.glyphs]) hc hcross hbehind
      · exact hbehind

end CuttingUp

namespace SimpleSelector

section Uncut

/-- Read from its own start, a text has no place where a selector is cut. -/
structure Uncut (text : Text) : Prop where
  combinators : ∀ c n, OutsideAt text c n → isCombinator c = false
  marks : ∀ c n, OutsideAt text c n → isMark c = true → n = 0

theorem not_isTurn_of_isCombinator {c : Char} (h : isCombinator c = true) :
    Walk.isTurn c = false := by
  simp only [isCombinator, isSpace, Bool.or_eq_true, decide_eq_true_eq] at h
  rcases h with (((((((rfl | rfl) | rfl) | rfl) | rfl) | rfl) | rfl) | rfl) |
    rfl <;> rfl

theorem glyphs_of_isMark {c : Char} (h : isMark c = true) (rest : Text) :
    ∃ others, Walk.start.glyphs (c :: rest) = ⟨c, true⟩ :: others := by
  simp only [isMark, Bool.or_eq_true, decide_eq_true_eq] at h
  rcases h with (rfl | rfl) | rfl
  · exact ⟨_, glyphs_cons rfl rest⟩
  · exact ⟨_, glyphs_cons rfl rest⟩
  · exact ⟨_, Walk.glyphs_opening (.inr rfl) 0 rest⟩

theorem glyphs_of_outsideAt
    {text : Text} {c : Char} {n : Nat} (h : OutsideAt text c n)
    (hc : ∀ rest, ∃ others,
      Walk.start.glyphs (c :: rest) = ⟨c, true⟩ :: others) :
    ∃ found others, Walk.start.glyphs text = found ++ ⟨c, true⟩ :: others ∧
      (found = [] → n = 0) := by
  obtain ⟨front, back, rfl, rfl, hcross⟩ := h
  obtain ⟨others, hothers⟩ := hc back
  refine ⟨Walk.start.glyphs front, others, ?_, fun hnil => ?_⟩
  · rw [hcross.glyphs_append, hothers]
  · rw [← Walk.map_char_glyphs Walk.start front, hnil]
    rfl

/-- What a walk does not expose does not cut. -/
theorem uncut_of_hides
    {text : Text} (hcombinators : Hides isCombinator text)
    (hmarks : HidesBehind isMark text) : Uncut text := by
  constructor
  case combinators =>
    intro c n houtside
    cases hc : isCombinator c with
    | false =>
        rfl
    | true =>
        obtain ⟨found, others, hglyphs, -⟩ := glyphs_of_outsideAt houtside
          (fun rest => ⟨_, glyphs_cons (not_isTurn_of_isCombinator hc) rest⟩)
        have hhidden := hcombinators ⟨c, true⟩ (by rw [hglyphs]; simp)
        simp [Glyph.shows, hc] at hhidden
  case marks =>
    intro c n houtside hc
    obtain ⟨found, others, hglyphs, hzero⟩ :=
      glyphs_of_outsideAt houtside (glyphs_of_isMark hc)
    cases found with
    | nil =>
        exact hzero rfl
    | cons glyph found =>
        have hhidden := hmarks ⟨c, true⟩ (by rw [hglyphs]; simp)
        simp [Glyph.shows, hc] at hhidden

/-- The beginning of an uncut text is uncut. -/
theorem Uncut.left {text rest : Text} (h : Uncut (text ++ rest)) : Uncut text := by
  have hwhole : ∀ {c n}, OutsideAt text c n → OutsideAt (text ++ rest) c n := by
    rintro c n ⟨front, back, rfl, hn, hcross⟩
    exact ⟨front, back ++ rest, by simp, hn, hcross.change_behind _⟩
  exact ⟨fun c n houtside => h.combinators c n (hwhole houtside),
    fun c n houtside => h.marks c n (hwhole houtside)⟩

/-- An uncut text does not begin with a combinator. -/
theorem Uncut.head {text : Text} (h : Uncut text) :
    ∀ c ∈ text.head?, isCombinator c = false := by
  intro c hc
  obtain ⟨rest, rfl⟩ := List.head?_eq_some_iff.mp hc
  exact h.combinators c 0 ⟨[], rest, rfl, rfl, .done 0 _⟩

end Uncut

section Cutting

/-- A place of a selector where a compound or a simple selector may begin. -/
def MayBegin (left rest : Text) : Prop :=
  left = [] ∨
    (∃ front c, left = front ++ [c] ∧ isCombinator c = true ∧
      Crosses 0 front (c :: rest) 0) ∨
    ∃ c ∈ rest.head?, isMark c = true

/--
A subsection of a selector, between what is left and right of it: from the
start of a compound or a mark to the next combinator, mark or end.
-/
structure Subsection (left text right : Text) : Prop where
  outside : Crosses 0 left (text ++ right) 0
  first : MayBegin left (text ++ right)
  last : right = [] ∨ (Crosses 0 text right 0 ∧
    ∃ c ∈ right.head?, isCombinator c = true ∨ isMark c = true)
  uncut : Uncut text

/-- The subsections of a text that begins at an offset. -/
inductive Subsections : Nat → Text → List Piece → Prop
  | last {start : Nat} {text : Text} :
      Uncut text → Subsections start text [⟨start, text⟩]
  | separator {start : Nat} {front back : Text} {c : Char}
      {pieces : List Piece} :
      Uncut front → isCombinator c = true → Crosses 0 front (c :: back) 0 →
      Subsections (start + byteLength front + 1) back pieces →
      Subsections start (front ++ c :: back) (⟨start, front⟩ :: pieces)
  | mark {start : Nat} {front back : Text} {c : Char} {pieces : List Piece} :
      Uncut front → isMark c = true → Crosses 0 front (c :: back) 0 →
      Subsections (start + byteLength front) (c :: back) pieces →
      Subsections start (front ++ c :: back) (⟨start, front⟩ :: pieces)

theorem hides_behind_crosses
    {p : Char → Bool} {front rest : Text} (hcross : Crosses 0 front rest 0)
    (h : Hides p (front ++ rest)) : Hides p rest := by
  intro glyph hglyph
  refine h glyph ?_
  rw [hcross.glyphs_append]
  exact List.mem_append_right _ hglyph

/-- A text is crossed in front of what a longer one is crossed in front of. -/
theorem crosses_of_append
    {front back rest : Text} {c d : Char} (hd : Walk.isTurn d = false)
    (hfront : Crosses 0 front (c :: back) 0)
    (h : Crosses 0 (front ++ c :: back) (d :: rest) 0) :
    Crosses 0 (c :: back) (d :: rest) 0 := by
  have hlong := (hfront.change_behind (back ++ d :: rest)).glyphs_append
  have hwhole := h.glyphs_append
  rw [List.append_assoc, List.cons_append, hlong, hfront.glyphs_append,
    List.append_assoc] at hwhole
  have hglyphs : Walk.start.glyphs (c :: back ++ d :: rest) =
      Walk.start.glyphs (c :: back) ++
        ⟨d, true⟩ :: Walk.start.glyphs rest := by
    rw [← glyphs_cons hd]
    exact List.append_cancel_left hwhole
  obtain ⟨rest', hrest, hcross⟩ := exposes_of_glyphs hglyphs
  rw [Walk.map_char_glyphs] at hrest hcross
  obtain ⟨-, rfl⟩ := List.cons.inj (List.append_cancel_left hrest)
  exact hcross

/-- A compound that ends the text is cut into subsections. -/
theorem subsections_of_cutUp
    {text : Text} {parts : List Text} (h : CutUp isMark text parts)
    (hhides : Hides isCombinator text) (start : Nat) :
    Subsections start text (Piece.place 0 start parts) := by
  induction h generalizing start with
  | last hmarks =>
      exact .last (uncut_of_hides hhides hmarks)
  | next hmarks hc hcross _ ih =>
      have hback := ih (hides_behind_crosses hcross hhides)
      exact .mark (uncut_of_hides hhides.left hmarks) hc hcross (hback _)

/-- A compound in front of a combinator is cut into subsections. -/
theorem subsections_append
    {text back : Text} {parts : List Text} {pieces : List Piece} {c : Char}
    (h : CutUp isMark text parts) (hhides : Hides isCombinator text)
    (hc : isCombinator c = true) (hcross : Crosses 0 text (c :: back) 0)
    {start : Nat} (hback : Subsections (start + byteLength text + 1) back pieces) :
    Subsections start (text ++ c :: back) (Piece.place 0 start parts ++ pieces) := by
  induction h generalizing start with
  | last hmarks =>
      exact .separator (uncut_of_hides hhides hmarks) hc hcross hback
  | @next front rest d parts hmarks hd hfront _ ih =>
      have hturn := not_isTurn_of_isCombinator hc
      have hstart : start + byteLength (front ++ d :: rest) + 1 =
          start + byteLength front + byteLength (d :: rest) + 1 := by
        rw [byteLength_append]
        omega
      rw [hstart] at hback
      have hrest := ih (hides_behind_crosses hfront hhides)
        (crosses_of_append hturn hfront hcross) hback
      rw [List.append_assoc]
      exact .mark (uncut_of_hides hhides.left hmarks) hd
        (hfront.change_behind _) hrest

/-- A selector is cut into subsections. -/
theorem subsections_piecesOf (start : Nat) (text : Text) :
    Subsections start text (piecesOf ⟨start, text⟩) := by
  have hparted := parted_splitExposed
    (fun c => not_isTurn_of_isCombinator) text
  rw [piecesOf, Piece.split]
  simp only
  generalize splitExposed isCombinator text = parts at hparted
  induction hparted generalizing start with
  | @last text hhides =>
      have hcut := subsections_of_cutUp (cutUp_cutExposed isMark text) hhides start
      simpa [Piece.place, Piece.cut] using hcut
  | @next front back c parts hhides hc hcross _ ih =>
      exact subsections_append (cutUp_cutExposed isMark front) hhides hc hcross
        (ih (start + byteLength front + 1))

end Cutting

section Facts

variable {whole left text : Text} {start : Nat} {pieces : List Piece}

/-- Behind a combinator a compound may begin. -/
theorem mayBegin_behind
    {front back : Text} {c : Char} (hleft : Crosses 0 left (front ++ c :: back) 0)
    (hcross : Crosses 0 front (c :: back) 0) (hc : isCombinator c = true) :
    Crosses 0 (left ++ (front ++ [c])) back 0 ∧
      MayBegin (left ++ (front ++ [c])) back := by
  have hfront := hleft.trans hcross
  have hone : Crosses 0 [c] back 0 :=
    .other (not_isTurn_of_isCombinator hc) (.done 0 back)
  rw [← List.append_assoc]
  exact ⟨Crosses.trans hfront hone, .inr (.inl ⟨_, c, rfl, hc, hfront⟩)⟩

/-- The pieces of a selector are subsections of it. -/
theorem Subsections.subsection
    (h : Subsections start text pieces) (hwhole : whole = left ++ text)
    (hstart : byteLength left = start) (hleft : Crosses 0 left text 0)
    (hfirst : MayBegin left text) :
    ∀ piece ∈ pieces, ∃ left right, whole = left ++ (piece.text ++ right) ∧
      byteLength left = piece.start ∧ Subsection left piece.text right := by
  induction h generalizing left with
  | @last start text huncut =>
      rw [List.forall_mem_singleton]
      refine ⟨left, [], by simpa using hwhole, hstart, ?_, ?_, .inl rfl, huncut⟩
      · rwa [List.append_nil]
      · rwa [List.append_nil]
  | @separator start front back c pieces huncut hc hcross _ ih =>
      refine List.forall_mem_cons.mpr ⟨⟨left, c :: back, hwhole, hstart, hleft,
        hfirst, .inr ⟨hcross, c, rfl, .inl hc⟩, huncut⟩, ?_⟩
      obtain ⟨hcross', hbegin⟩ := mayBegin_behind hleft hcross hc
      refine ih ?_ ?_ hcross' hbegin
      · rw [hwhole]
        simp
      · simp [hstart, Selector.utf8Size_of_isCombinator hc]
        omega
  | @mark start front back c pieces huncut hc hcross _ ih =>
      refine List.forall_mem_cons.mpr ⟨⟨left, c :: back, hwhole, hstart, hleft,
        hfirst, .inr ⟨hcross, c, rfl, .inr hc⟩, huncut⟩, ?_⟩
      refine ih ?_ ?_ (hleft.trans hcross) (.inr (.inr ⟨c, rfl, hc⟩))
      · rw [hwhole, List.append_assoc]
      · rw [byteLength_append, hstart]

/-- The pieces of a selector stand behind one another. -/
theorem Subsections.ordered (h : Subsections start text pieces) :
    (∀ piece ∈ pieces, start ≤ piece.span.start) ∧
      pieces.Pairwise (fun piece next => piece.span.stop ≤ next.span.start) := by
  induction h with
  | last _ =>
      simp [Piece.span]
  | separator _ _ _ _ ih =>
      refine ⟨?_, List.pairwise_cons.mpr ⟨fun next hnext => ?_, ih.2⟩⟩
      · refine List.forall_mem_cons.mpr ⟨Nat.le_refl _, fun next hnext => ?_⟩
        have hle := ih.1 next hnext
        omega
      · have hle := ih.1 next hnext
        simp only [Piece.span] at hle ⊢
        omega
  | mark _ _ _ _ ih =>
      refine ⟨?_, List.pairwise_cons.mpr ⟨fun next hnext => ?_, ih.2⟩⟩
      · refine List.forall_mem_cons.mpr ⟨Nat.le_refl _, fun next hnext => ?_⟩
        have hle := ih.1 next hnext
        omega
      · exact ih.1 next hnext

/-- Only combinators are left out between the pieces of a selector. -/
theorem Subsections.covered
    (h : Subsections start text pieces) (hwhole : whole = left ++ text)
    (hstart : byteLength left = start) (hleft : Crosses 0 left text 0) :
    ∀ n, start ≤ n → n < start + byteLength text →
      (∃ piece ∈ pieces, piece.span.start ≤ n ∧ n < piece.span.stop) ∨
        ∃ c, isCombinator c = true ∧ OutsideAt whole c n := by
  induction h generalizing left with
  | @last start text _ =>
      intro n hle hlt
      exact .inl ⟨⟨start, text⟩, by simp, hle, hlt⟩
  | @separator start front back c pieces _ hc hcross _ ih =>
      intro n hle hlt
      have hsize := Selector.utf8Size_of_isCombinator hc
      rw [byteLength_append, byteLength_cons, hsize] at hlt
      by_cases hin : n < start + byteLength front
      · exact .inl ⟨⟨start, front⟩, by simp, hle, hin⟩
      · by_cases hat : n = start + byteLength front
        · refine .inr ⟨c, hc, left ++ front, back, ?_, ?_, hleft.trans hcross⟩
          · rw [hwhole, List.append_assoc]
          · rw [byteLength_append, hstart, hat]
        · obtain ⟨hcross', -⟩ := mayBegin_behind hleft hcross hc
          have hwhole' : whole = left ++ (front ++ [c]) ++ back := by
            rw [hwhole]
            simp
          have hstart' : byteLength (left ++ (front ++ [c])) =
              start + byteLength front + 1 := by
            simp [hstart, hsize]
            omega
          rcases ih hwhole' hstart' hcross' n (by omega) (by omega) with
            ⟨piece, hpiece, hspan⟩ | hcombinator
          · exact .inl ⟨piece, List.mem_cons_of_mem _ hpiece, hspan⟩
          · exact .inr hcombinator
  | @mark start front back c pieces _ hc hcross _ ih =>
      intro n hle hlt
      rw [byteLength_append] at hlt
      by_cases hin : n < start + byteLength front
      · exact .inl ⟨⟨start, front⟩, by simp, hle, hin⟩
      · have hwhole' : whole = left ++ front ++ c :: back := by
          rw [hwhole, List.append_assoc]
        have hstart' : byteLength (left ++ front) = start + byteLength front := by
          rw [byteLength_append, hstart]
        rcases ih hwhole' hstart' (hleft.trans hcross) n (by omega)
            (by omega) with ⟨piece, hpiece, hspan⟩ | hcombinator
        · exact .inl ⟨piece, List.mem_cons_of_mem _ hpiece, hspan⟩
        · exact .inr hcombinator

end Facts

end SimpleSelector

end StylesheetPruning
