import StylesheetPruning.Proofs.Selector.Subsections

/-!
# The ranges of the parts of a selector

Every part of a selector is read from a range of its text: from a subsection
without the whitespace at its end. A subsection that is nothing but a pseudo
suffix has no range.

**Whitespace.** A subsection never begins with whitespace, which would have cut
the selector. At its end there is at most one whitespace character, the one that
an escape takes with it.

**Results.**
* `Crosses.exists_escape`: whitespace that does not cut belongs to an escape.
* `Subsection.trim_eq`, `Subsection.exists_escape`: what trimming takes away.
* `accounted_rangesOf`: what stands outside of the ranges of a selector.
* `exists_partAt_of_mem_rangesOf`: what each range is, in the whole selector.
-/

namespace StylesheetPruning

section Escapes

theorem isHexDigit_of_hexTail
    {n : Nat} {rest tail : Text} {c : Char} (hc : isSpace c = true)
    (h : hexTail n rest = tail ++ [c]) : ∀ d ∈ tail, isHexDigit d = true := by
  induction n generalizing rest tail with
  | zero =>
      cases rest with
      | nil =>
          simp [hexTail] at h
      | cons e rest =>
          have hnil : tail = [] := by
            have hlength := congrArg List.length h
            rw [hexTail] at hlength
            split at hlength <;> simp at hlength
            exact hlength
          simp [hnil]
  | succ n ih =>
      cases rest with
      | nil =>
          simp [hexTail] at h
      | cons e rest =>
          rw [hexTail] at h
          by_cases he : isHexDigit e = true
          · rw [if_pos he] at h
            cases tail with
            | nil =>
                obtain ⟨rfl, -⟩ := List.cons.inj h
                rw [isSpace_of_isHexDigit he] at hc
                cases hc
            | cons d tail =>
                obtain ⟨rfl, hrest⟩ := List.cons.inj h
                exact List.forall_mem_cons.mpr ⟨he, ih hrest⟩
          · rw [if_neg he] at h
            have hnil : tail = [] := by
              have hlength := congrArg List.length h
              split at hlength <;> simp at hlength
              exact hlength
            simp [hnil]

/-- Whitespace at the end of an escape is its only whitespace. -/
theorem not_isSpace_of_escapeTail
    {rest tail : Text} {c : Char} (hc : isSpace c = true)
    (h : escapeTail rest = tail ++ [c]) : ∀ d ∈ tail, isSpace d = false := by
  cases rest with
  | nil =>
      simp at h
  | cons e rest =>
      rw [escapeTail_cons] at h
      by_cases he : isHexDigit e = true
      · rw [if_pos he] at h
        cases tail with
        | nil =>
            simp
        | cons d tail =>
            obtain ⟨rfl, hrest⟩ := List.cons.inj h
            have hdigits := isHexDigit_of_hexTail hc hrest
            refine List.forall_mem_cons.mpr ⟨isSpace_of_isHexDigit he, ?_⟩
            exact fun d hd => isSpace_of_isHexDigit (hdigits d hd)
      · rw [if_neg he] at h
        have hnil : tail = [] := by
          have hlength := congrArg List.length h
          simpa using hlength
        simp [hnil]

variable {depth : Nat} {front rest : Text} {c : Char}

theorem not_isTurn_of_isSpace (hc : isSpace c = true) :
    Walk.isTurn c = false :=
  SimpleSelector.not_isTurn_of_isCombinator
    (by simp [SimpleSelector.isCombinator, hc])

/-- A character at the end of an escape that begins behind a text. -/
def EndsEscape (depth : Nat) (front : Text) (c : Char) (rest : Text)
    (depth' : Nat) : Prop :=
  ∃ before tail, front = before ++ '\\' :: tail ∧
    Crosses depth before ('\\' :: (tail ++ c :: rest)) depth' ∧
    escapeTail (tail ++ c :: rest) = tail ++ [c]

theorem EndsEscape.behind
    {depth' depth'' : Nat} {part : Text}
    (h : EndsEscape depth' front c rest depth'')
    (hpart : ∀ {before behind}, before ++ behind = front ++ c :: rest →
      Crosses depth' before behind depth'' →
        Crosses depth (part ++ before) behind depth'') :
    EndsEscape depth (part ++ front) c rest depth'' := by
  obtain ⟨before, tail, rfl, hcross, htail⟩ := h
  exact ⟨part ++ before, tail, by simp, hpart (by simp) hcross, htail⟩

/-- What stands in front does not change how whitespace is crossed. -/
theorem crosses_or_endsEscape_behind
    {depth' depth'' : Nat} (part : Text)
    (hpart : ∀ {before behind}, before ++ behind = front ++ c :: rest →
      Crosses depth' before behind depth'' →
        Crosses depth (part ++ before) behind depth'')
    (h : Crosses depth' front (c :: rest) depth'' ∨
      EndsEscape depth' front c rest depth'') :
    Crosses depth (part ++ front) (c :: rest) depth'' ∨
      EndsEscape depth (part ++ front) c rest depth'' :=
  h.imp (hpart rfl) (fun hescape => hescape.behind hpart)

theorem cons_eq_concat {d : Char} {back : Text} (h : front ++ [c] = d :: back) :
    (front = [] ∧ c = d ∧ back = []) ∨
      ∃ body, front = d :: body ∧ back = body ++ [c] := by
  cases front with
  | nil =>
      obtain ⟨rfl, rfl⟩ := List.cons.inj h
      exact .inl ⟨rfl, rfl, rfl⟩
  | cons e body =>
      obtain ⟨rfl, rfl⟩ := List.cons.inj h
      exact .inr ⟨body, rfl, rfl⟩

/-- Whitespace that is crossed can cut, or it belongs to an escape. -/
theorem Crosses.exists_escape
    {depth' : Nat} (hc : isSpace c = true)
    (h : Crosses depth (front ++ [c]) rest depth') :
    Crosses depth front (c :: rest) depth' ∨
      EndsEscape depth front c rest depth' := by
  have hturn := not_isTurn_of_isSpace hc
  generalize htext : front ++ [c] = text at h
  induction h generalizing front with
  | done depth rest =>
      simp at htext
  | @escape depth depth' tail back rest htail hback ih =>
      rcases List.eq_nil_or_concat back with rfl | ⟨body, d, rfl⟩
      · -- The escape ends here, and the character is its last one.
        cases hback with
        | done =>
        rw [List.append_nil] at htext
        rcases cons_eq_concat htext with ⟨-, rfl, -⟩ | ⟨body, rfl, rfl⟩
        · cases hturn
        · refine .inr ⟨[], body, rfl, .done _ _, ?_⟩
          simpa using htail
      · rw [List.concat_eq_append] at htext hback ih htail
        rw [← List.append_assoc, ← List.cons_append] at htext
        obtain ⟨rfl, hlast⟩ := List.append_inj' htext rfl
        obtain rfl := List.singleton_inj.mp hlast
        have hpart : ∀ {before behind}, before ++ behind = body ++ c :: rest →
            Crosses depth before behind depth' →
              Crosses depth (('\\' :: tail) ++ before) behind depth' := by
          intro before behind hbehind hcross
          refine .escape ?_ hcross
          rw [hbehind]
          simpa using htail
        exact crosses_or_endsEscape_behind ('\\' :: tail) hpart (ih rfl)
  | @opening depth depth' d back rest hd hback ih =>
      rcases cons_eq_concat htext with ⟨-, rfl, -⟩ | ⟨body, rfl, rfl⟩
      · rcases hd with rfl | rfl <;> cases hturn
      · exact crosses_or_endsEscape_behind [d] (fun _ => .opening hd) (ih rfl)
  | @closing depth depth' d back rest hd hback ih =>
      rcases cons_eq_concat htext with ⟨-, rfl, -⟩ | ⟨body, rfl, rfl⟩
      · rcases hd with rfl | rfl <;> cases hturn
      · exact crosses_or_endsEscape_behind [d] (fun _ => .closing hd) (ih rfl)
  | @other depth depth' d back rest hd hback ih =>
      rcases cons_eq_concat htext with ⟨rfl, rfl, rfl⟩ | ⟨body, rfl, rfl⟩
      · cases hback with
        | done =>
        exact .inl (.done _ _)
      · exact crosses_or_endsEscape_behind [d] (fun _ => .other hd) (ih rfl)

end Escapes

theorem Piece.trim_of_head {piece : Piece}
    (h : ∀ c ∈ piece.text.head?, isSpace c = false) :
    piece.trim = ⟨piece.start, trimEnd piece.text⟩ := by
  obtain ⟨start, text⟩ := piece
  cases text with
  | nil =>
      rfl
  | cons c rest =>
      have hc : isSpace c = false := h c rfl
      have htext : (Piece.mk start (c :: rest)).trim.text = trimEnd (c :: rest) := by
        rw [Piece.text_trim, trimmed_cons hc, trimEnd_cons_of_not_isSpace hc]
      have hstart : (Piece.mk start (c :: rest)).trim.start = start := by
        simp [Piece.trim, hc]
      rw [Piece.mk.injEq]
      exact ⟨hstart, htext⟩

namespace SimpleSelector

section Trimming

variable {left text right : Text}

theorem Uncut.not_isSpace_head {text : Text} (h : Uncut text) :
    ∀ c ∈ text.head?, isSpace c = false := by
  intro c hc
  have hcombinator := h.head c hc
  simp only [isCombinator, Bool.or_eq_false_iff] at hcombinator
  exact hcombinator.1.1.1.1

/-- A subsection begins with no whitespace. -/
theorem Subsection.trim_eq (h : Subsection left text right) (start : Nat) :
    (Piece.mk start text).trim = ⟨start, trimEnd text⟩ :=
  Piece.trim_of_head h.uncut.not_isSpace_head

/-- At the end of a subsection an escape may take one whitespace character. -/
theorem Subsection.exists_escape (h : Subsection left text right)
    (hbare : ∀ c ∈ (left ++ (text ++ right)).getLast?, isSpace c = false) :
    trimEnd text = text ∨ ∃ c, isSpace c = true ∧ text = trimEnd text ++ [c] ∧
      EndsEscape 0 (trimEnd text) c right 0 := by
  rcases List.eq_nil_or_concat text with rfl | ⟨body, c, rfl⟩
  · exact .inl rfl
  · rw [List.concat_eq_append] at h hbare ⊢
    cases hc : isSpace c with
    | false =>
        have hlast : trimEnd [c] = [c] := trimEnd_cons_of_not_isSpace hc []
        exact .inl (trimEnd_append_of_eq_self (by simp) hlast body)
    | true =>
        right
        rcases h.last with rfl | ⟨hcross, -⟩
        · have hspace := hbare c (by simp)
          rw [hc] at hspace
          cases hspace
        · rcases hcross.exists_escape hc with hcut | hescape
          · -- Otherwise it would have cut the selector.
            have houtside : OutsideAt (body ++ [c]) c (byteLength body) :=
              ⟨body, [], rfl, rfl, hcut.change_behind []⟩
            have hcombinator := h.uncut.combinators c _ houtside
            simp [isCombinator, hc] at hcombinator
          · obtain ⟨before, tail, rfl, -, htail⟩ := id hescape
            have hsolid : ∀ d ∈ '\\' :: tail, isSpace d = false :=
              List.forall_mem_cons.mpr ⟨rfl, not_isSpace_of_escapeTail hc htail⟩
            have htrim : trimEnd (before ++ '\\' :: tail ++ [c]) =
                before ++ '\\' :: tail := by
              rw [trimEnd_append_of_forall (by simpa using hc)]
              exact trimEnd_append_of_eq_self (by simp)
                (trimEnd_of_forall hsolid) before
            rw [htrim]
            exact ⟨c, hc, rfl, hescape⟩

end Trimming

section Ranges

/-- Whether a piece of a selector asks for something besides a pseudo suffix. -/
def asks (piece : Piece) : Bool :=
  !(breakExposed (fun c => c = ':') piece.trim.text).1.isEmpty

/-- The ranges of a selector from which its parts are read. -/
def rangesOf (text : Text) : List Span :=
  ((piecesOf ⟨0, text⟩).filter asks).map (fun piece => piece.trim.span)

theorem head?_of_breakExposed {text : Text}
    (h : (breakExposed (fun c => c = ':') text).1 = []) :
    text = [] ∨ text.head? = some ':' := by
  cases text with
  | nil =>
      exact .inl rfl
  | cons c rest =>
      right
      simp only [breakExposed, List.map_eq_nil_iff, Walk.glyphs] at h
      rw [List.takeWhile_cons] at h
      split at h
      · cases h
      · next hshown =>
          simp only [Glyph.shows, Bool.not_eq_true, Bool.not_eq_false',
            Bool.and_eq_true, decide_eq_true_eq] at hshown
          rw [hshown.2]
          rfl

/-- A byte of a selector is in a part, or it has a reason to be left out. -/
inductive Accounted (text : Text) (ranges : List Span) (n : Nat) : Prop
  /-- It belongs to a part. -/
  | part {range : Span} : range ∈ ranges → range.start ≤ n → n < range.stop →
      Accounted text ranges n
  /-- It is a combinator outside of brackets and escapes. -/
  | combinator {c : Char} : isCombinator c = true → OutsideAt text c n →
      Accounted text ranges n
  /-- It is whitespace that belongs to the escape at the end of a part. -/
  | escape {left part rest : Text} {c : Char} :
      text = left ++ (part ++ c :: rest) →
      ⟨byteLength left, byteLength left + byteLength part⟩ ∈ ranges →
      byteLength left + byteLength part = n → isSpace c = true →
      Crosses 0 left (part ++ c :: rest) 0 → EndsEscape 0 part c rest 0 →
      Accounted text ranges n
  /-- It lies in a subsection that begins with a colon. -/
  | pseudo {left part right : Text} :
      text = left ++ (part ++ right) → byteLength left ≤ n →
      n < byteLength left + byteLength part → Subsection left part right →
      part.head? = some ':' → Accounted text ranges n

/-- A part of a selector, without the whitespace at the end of its subsection. -/
structure PartAt (text : Text) (range : Span) (left part right : Text) :
    Prop where
  whole : text = left ++ (part ++ right)
  range : range = ⟨byteLength left, byteLength left + byteLength part⟩
  nonempty : part ≠ []
  uncut : Uncut part
  first : MayBegin left (part ++ right)
  last : ∀ c ∈ right.head?, isCombinator c = true ∨ isMark c = true

variable {text : Text}

theorem subsection_of_mem_piecesOf {piece : Piece}
    (h : piece ∈ piecesOf ⟨0, text⟩) :
    ∃ left part right, piece = ⟨byteLength left, part⟩ ∧
      text = left ++ (part ++ right) ∧ Subsection left part right := by
  obtain ⟨left, right, htext, hleft, hsub⟩ :=
    (subsections_piecesOf 0 text).subsection rfl rfl (.done 0 text) (.inl rfl)
      piece h
  exact ⟨left, piece.text, right, by rw [hleft], htext, hsub⟩

/-- What asks for nothing is empty or begins with a colon. -/
theorem head?_of_not_asks {left part right : Text}
    (h : Subsection left part right) {start : Nat}
    (hasks : asks ⟨start, part⟩ = false) :
    part = [] ∨ part.head? = some ':' := by
  rw [asks, h.trim_eq, Bool.not_eq_false', List.isEmpty_iff] at hasks
  cases part with
  | nil =>
      exact .inl rfl
  | cons c rest =>
      rw [trimEnd_cons_of_not_isSpace (h.uncut.not_isSpace_head c rfl)] at hasks
      exact .inr ((head?_of_breakExposed hasks).resolve_left (by simp))

/-- What stands outside of the ranges of a selector has a reason to. -/
theorem accounted_rangesOf (hbare : ∀ c ∈ text.getLast?, isSpace c = false)
    {n : Nat} (hn : n < byteLength text) : Accounted text (rangesOf text) n := by
  have hcovered := (subsections_piecesOf 0 text).covered rfl rfl (.done 0 text) n
    (Nat.zero_le n) (by omega)
  rcases hcovered with ⟨piece, hpiece, hstart, hstop⟩ | ⟨c, hc, houtside⟩
  · obtain ⟨left, part, right, rfl, htext, hsub⟩ :=
      subsection_of_mem_piecesOf hpiece
    have hlt : n < byteLength left + byteLength part := hstop
    cases hasks : asks ⟨byteLength left, part⟩ with
    | true =>
        have hrange : ⟨byteLength left, byteLength left + byteLength (trimEnd part)⟩ ∈
            rangesOf text := by
          refine List.mem_map.mpr ⟨⟨byteLength left, part⟩,
            List.mem_filter.mpr ⟨hpiece, hasks⟩, ?_⟩
          rw [hsub.trim_eq]
          rfl
        by_cases hin : n < byteLength left + byteLength (trimEnd part)
        · exact .part hrange hstart hin
        · rw [htext] at hbare
          rcases hsub.exists_escape hbare with hsame | ⟨c, hc, hpart, hescape⟩
          · rw [hsame] at hin
            exact absurd hlt hin
          · have hsize := Selector.utf8Size_of_isCombinator
              (show isCombinator c = true by simp [isCombinator, hc])
            have hrest : part ++ right = trimEnd part ++ c :: right := by
              rw [hpart, trimEnd_append_of_forall (by simpa using hc),
                trimEnd_trimEnd]
              simp
            have hlength := congrArg byteLength hpart
            simp only [byteLength_append, byteLength_cons, byteLength_nil,
              hsize] at hlength
            refine .escape (by rw [htext, hrest]) hrange (by omega) hc ?_ hescape
            rw [← hrest]
            exact hsub.outside
    | false =>
        rcases head?_of_not_asks hsub hasks with rfl | hcolon
        · simp only [byteLength_nil] at hlt
          simp only [Piece.span] at hstart
          omega
        · exact .pseudo htext hstart hlt hsub hcolon
  · exact .combinator hc houtside

/-- The ranges of a selector are those of its subsections that ask. -/
theorem exists_partAt_of_mem_rangesOf
    (hbare : ∀ c ∈ text.getLast?, isSpace c = false) {range : Span}
    (h : range ∈ rangesOf text) :
    ∃ left part right, PartAt text range left part right := by
  obtain ⟨piece, hpiece, rfl⟩ := List.mem_map.mp h
  obtain ⟨hpiece, hasks⟩ := List.mem_filter.mp hpiece
  obtain ⟨left, part, right, rfl, htext, hsub⟩ :=
    subsection_of_mem_piecesOf hpiece
  have hne : trimEnd part ≠ [] := by
    intro hnil
    rw [asks, hsub.trim_eq, hnil] at hasks
    cases hasks
  have hrange : (Piece.mk (byteLength left) part).trim.span =
      ⟨byteLength left, byteLength left + byteLength (trimEnd part)⟩ := by
    rw [hsub.trim_eq]
    rfl
  rw [htext] at hbare
  rcases hsub.exists_escape hbare with hsame | ⟨c, hc, hpart, -⟩
  · rw [hsame] at hne hrange
    refine ⟨left, part, right, htext, hrange, hne, hsub.uncut, hsub.first, ?_⟩
    intro c hc
    rcases hsub.last with rfl | ⟨-, d, hd, hcut⟩
    · cases hc
    · rw [Option.some.inj (hc.symm.trans hd)]
      exact hcut
  · have hrest : part ++ right = trimEnd part ++ c :: right := by
      rw [hpart, trimEnd_append_of_forall (by simpa using hc), trimEnd_trimEnd]
      simp
    have huncut := hsub.uncut
    rw [hpart] at huncut
    refine ⟨left, trimEnd part, c :: right, by rw [htext, hrest], hrange, hne,
      huncut.left, ?_, ?_⟩
    · rw [← hrest]
      exact hsub.first
    · intro d hd
      rw [← Option.some.inj hd]
      simp [isCombinator, hc]

/-- The ranges of a selector stand behind one another. -/
theorem pairwise_rangesOf (text : Text) :
    (rangesOf text).Pairwise (fun range next => range.stop ≤ next.start) := by
  have hpieces := (subsections_piecesOf 0 text).ordered.2
  rw [rangesOf, List.pairwise_map]
  refine (hpieces.sublist List.filter_sublist).imp_of_mem ?_
  intro piece next hpiece hnext hle
  obtain ⟨left, part, right, rfl, -, hsub⟩ :=
    subsection_of_mem_piecesOf (List.mem_filter.mp hpiece).1
  obtain ⟨left', part', right', rfl, -, hsub'⟩ :=
    subsection_of_mem_piecesOf (List.mem_filter.mp hnext).1
  obtain ⟨back, hpart, -⟩ := exists_eq_trimEnd_append part
  have hlength := congrArg byteLength hpart
  rw [hsub.trim_eq, hsub'.trim_eq]
  simp only [Piece.span, byteLength_append] at hle hlength ⊢
  omega

end Ranges

end SimpleSelector

end StylesheetPruning
