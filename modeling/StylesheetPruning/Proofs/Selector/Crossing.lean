import StylesheetPruning.Proofs.Selector.Walking

/-!
# Crossing a text outside of brackets and escapes

Whether a character of a selector list can cut it depends on what stands in
front of it: on the brackets that are still open there, and on an escape that
may reach over it. `Crosses` says how a text is read in front of another one,
without speaking of the walk that reads it.

**What follows.** An escape may grow when the character behind it changes. What
stands behind that character does not matter.

**Results.**
* `outsideAt_iff`: a walk exposes the characters that stand outside of brackets
  and escapes.
* `parted_splitExposed`, `Parted.splitExposed_eq`: splitting parts a text at the
  separators that stand outside of brackets and escapes.
-/

namespace StylesheetPruning

section Crossing

/--
How a text is read in front of another one, from one number of open brackets to
another. No escape of the first text reaches into the second one.
-/
inductive Crosses : Nat → Text → Text → Nat → Prop
  | done (depth : Nat) (rest : Text) : Crosses depth [] rest depth
  | escape {depth depth' : Nat} {tail front rest : Text} :
      escapeTail (tail ++ (front ++ rest)) = tail →
      Crosses depth front rest depth' →
      Crosses depth ('\\' :: (tail ++ front)) rest depth'
  | opening {depth depth' : Nat} {c : Char} {front rest : Text} :
      c = '(' ∨ c = '[' → Crosses (depth + 1) front rest depth' →
      Crosses depth (c :: front) rest depth'
  | closing {depth depth' : Nat} {c : Char} {front rest : Text} :
      c = ')' ∨ c = ']' → Crosses (depth - 1) front rest depth' →
      Crosses depth (c :: front) rest depth'
  | other {depth depth' : Nat} {c : Char} {front rest : Text} :
      Walk.isTurn c = false → Crosses depth front rest depth' →
      Crosses depth (c :: front) rest depth'

/-- A character at an offset of a text, outside of brackets and escapes. -/
def OutsideAt (text : Text) (c : Char) (offset : Nat) : Prop :=
  ∃ front back, text = front ++ c :: back ∧ byteLength front = offset ∧
    Crosses 0 front (c :: back) 0

variable {depth depth' depth'' : Nat} {front middle rest rest' : Text}

/-- Two texts that are crossed one after the other are crossed together. -/
theorem Crosses.trans
    (h : Crosses depth front (middle ++ rest) depth')
    (h' : Crosses depth' middle rest depth'') :
    Crosses depth (front ++ middle) rest depth'' := by
  generalize hbehind : middle ++ rest = behind at h
  induction h with
  | done depth behind =>
      exact h'
  | @escape depth depth' tail front behind htail _ ih =>
      subst hbehind
      rw [List.cons_append, List.append_assoc]
      refine .escape ?_ (ih h' rfl)
      rwa [List.append_assoc]
  | opening hc _ ih =>
      exact .opening hc (ih h' hbehind)
  | closing hc _ ih =>
      exact .closing hc (ih h' hbehind)
  | other hc _ ih =>
      exact .other hc (ih h' hbehind)

/-- Characters that turn nothing are crossed anywhere. -/
theorem crosses_of_forall
    (h : ∀ c ∈ front, Walk.isTurn c = false) (depth : Nat) (rest : Text) :
    Crosses depth front rest depth := by
  induction front with
  | nil =>
      exact .done depth rest
  | cons c front ih =>
      exact .other (h c (by simp)) (ih (fun d hd => h d (by simp [hd])))

theorem crosses_spaces (n depth : Nat) (rest : Text) :
    Crosses depth (spaces n) rest depth := by
  refine crosses_of_forall ?_ depth rest
  intro c hc
  rw [List.eq_of_mem_replicate hc]
  rfl

/-- An escape that ends in front of a character does not see behind it. -/
theorem escapeTail_append_cons
    {tail front : Text} {c : Char}
    (h : escapeTail (tail ++ (front ++ c :: rest)) = tail) (rest' : Text) :
    escapeTail (tail ++ (front ++ c :: rest')) = tail := by
  have hmin := fun rest =>
    min_length_escapeTail (tail ++ (front ++ [c])) rest
  have hassoc : ∀ rest, tail ++ (front ++ [c]) ++ rest =
      tail ++ (front ++ c :: rest) := by
    simp
  simp only [hassoc] at hmin
  have hold := hmin rest
  have hnew := hmin rest'
  obtain ⟨after, hafter⟩ :=
    exists_eq_escapeTail_append (tail ++ (front ++ c :: rest'))
  rw [h] at hold
  simp only [List.length_append, List.length_cons, List.length_nil]
    at hold hnew
  have hlength : (escapeTail (tail ++ (front ++ c :: rest'))).length =
      tail.length := by
    omega
  exact (List.append_inj_left hafter hlength.symm).symm

/-- What stands behind the next character does not matter in front of it. -/
theorem Crosses.change_behind {c : Char}
    (h : Crosses depth front (c :: rest) depth') (rest' : Text) :
    Crosses depth front (c :: rest') depth' := by
  generalize hbehind : c :: rest = behind at h
  induction h with
  | done depth behind =>
      exact .done depth _
  | escape htail _ ih =>
      subst hbehind
      exact .escape (escapeTail_append_cons htail rest') (ih rfl)
  | opening hc _ ih =>
      exact .opening hc (ih hbehind)
  | closing hc _ ih =>
      exact .closing hc (ih hbehind)
  | other hc _ ih =>
      exact .other hc (ih hbehind)

end Crossing

section Walking

variable {depth depth' : Nat} {front rest text : Text} {c : Char}

namespace Walk

theorem glyphs_escape
    {tail : Text} (h : escapeTail (tail ++ rest) = tail) (depth : Nat) :
    glyphs ⟨depth, 0⟩ ('\\' :: (tail ++ rest)) =
      ('\\' :: tail).map (fun c => ⟨c, false⟩) ++ glyphs ⟨depth, 0⟩ rest := by
  rw [glyphs]
  simp only [step, if_true, h, glyphs_skip]
  rfl

theorem glyphs_opening (h : c = '(' ∨ c = '[') (depth : Nat) (rest : Text) :
    glyphs ⟨depth, 0⟩ (c :: rest) =
      ⟨c, depth = 0⟩ :: glyphs ⟨depth + 1, 0⟩ rest := by
  rcases h with rfl | rfl <;> rfl

theorem glyphs_closing (h : c = ')' ∨ c = ']') (depth : Nat) (rest : Text) :
    glyphs ⟨depth, 0⟩ (c :: rest) =
      ⟨c, false⟩ :: glyphs ⟨depth - 1, 0⟩ rest := by
  rcases h with rfl | rfl <;> rfl

theorem glyphs_other (h : isTurn c = false) (depth : Nat) (rest : Text) :
    glyphs ⟨depth, 0⟩ (c :: rest) =
      ⟨c, depth = 0⟩ :: glyphs ⟨depth, 0⟩ rest :=
  passes_of_not_isTurn h depth rest

/-- A character turns a walk in one of three ways, or not at all. -/
theorem isTurn_cases (c : Char) :
    c = '\\' ∨ (c = '(' ∨ c = '[') ∨ (c = ')' ∨ c = ']') ∨
      isTurn c = false := by
  cases h : isTurn c with
  | false =>
      exact .inr (.inr (.inr rfl))
  | true =>
      simp only [isTurn, Bool.or_eq_true, decide_eq_true_eq] at h
      rcases h with (((rfl | rfl) | rfl) | rfl) | rfl <;> simp

end Walk

/-- A walk over a text that is crossed finds it whole. -/
theorem Crosses.exists_found (h : Crosses depth front rest depth') :
    ∃ found, found.map Glyph.char = front ∧
      Walk.glyphs ⟨depth, 0⟩ (front ++ rest) =
        found ++ Walk.glyphs ⟨depth', 0⟩ rest := by
  induction h with
  | done depth rest =>
      exact ⟨[], rfl, rfl⟩
  | @escape depth depth' tail front rest htail _ ih =>
      obtain ⟨found, rfl, hfound⟩ := ih
      refine ⟨('\\' :: tail).map (fun c => ⟨c, false⟩) ++ found, ?_, ?_⟩
      · simp [Function.comp_def]
      · rw [List.cons_append, List.append_assoc, Walk.glyphs_escape htail,
          hfound, List.append_assoc]
  | @opening depth depth' c front rest hc _ ih =>
      obtain ⟨found, rfl, hfound⟩ := ih
      refine ⟨⟨c, depth = 0⟩ :: found, rfl, ?_⟩
      rw [List.cons_append, Walk.glyphs_opening hc, hfound, List.cons_append]
  | @closing depth depth' c front rest hc _ ih =>
      obtain ⟨found, rfl, hfound⟩ := ih
      refine ⟨⟨c, false⟩ :: found, rfl, ?_⟩
      rw [List.cons_append, Walk.glyphs_closing hc, hfound, List.cons_append]
  | @other depth depth' c front rest hc _ ih =>
      obtain ⟨found, rfl, hfound⟩ := ih
      refine ⟨⟨c, depth = 0⟩ :: found, rfl, ?_⟩
      rw [List.cons_append, Walk.glyphs_other hc, hfound, List.cons_append]

theorem Crosses.glyphs_append (h : Crosses 0 front rest 0) :
    Walk.start.glyphs (front ++ rest) =
      Walk.start.glyphs front ++ Walk.start.glyphs rest := by
  obtain ⟨found, rfl, hfound⟩ := h.exists_found
  have htake :=
    Walk.glyphs_take_append Walk.start (found.map Glyph.char) rest
  have hfront : Walk.start.glyphs (found.map Glyph.char) = found := by
    rw [← htake, Walk.start, hfound, List.length_map, List.take_left]
  rw [hfront]
  exact hfound

/-- An item behind items that differ from it stands in what follows them. -/
theorem exists_append_of_notMem
    {α : Type} {item : α} {items rest front back : List α}
    (hitem : item ∉ items) (h : items ++ rest = front ++ item :: back) :
    ∃ middle, front = items ++ middle ∧ rest = middle ++ item :: back := by
  rcases List.append_eq_append_iff.mp h with
    ⟨middle, rfl, rfl⟩ | ⟨middle, rfl, hback⟩
  · exact ⟨middle, rfl, rfl⟩
  · cases middle with
    | nil =>
        exact ⟨[], by simp, hback.symm⟩
    | cons d middle =>
        obtain ⟨rfl, -⟩ := List.cons.inj hback
        simp at hitem

/-- A character of a text that a walk exposes, with what is crossed before it. -/
def Exposes (depth : Nat) (text : Text) (found : List Glyph) (c : Char) : Prop :=
  ∃ back, text = found.map Glyph.char ++ c :: back ∧
    Crosses depth (found.map Glyph.char) (c :: back) 0

/-- A walk exposes its first character, or one behind it. -/
theorem exposes_cons {d : Char} {exposed : Bool} {found others : List Glyph}
    (h : ⟨d, exposed⟩ :: Walk.glyphs ⟨depth', 0⟩ rest =
      found ++ ⟨c, true⟩ :: others)
    (hfirst : exposed = true → depth = 0)
    (hcross : ∀ {front back}, Crosses depth' front back 0 →
      Crosses depth (d :: front) back 0)
    (hrest : ∀ found, Walk.glyphs ⟨depth', 0⟩ rest =
      found ++ ⟨c, true⟩ :: others → Exposes depth' rest found c) :
    Exposes depth (d :: rest) found c := by
  cases found with
  | nil =>
      obtain ⟨hglyph, -⟩ := List.cons.inj h
      obtain ⟨rfl, hexposed⟩ := Glyph.mk.inj hglyph
      obtain rfl := hfirst hexposed
      exact ⟨rest, rfl, .done 0 _⟩
  | cons glyph found =>
      obtain ⟨rfl, hbehind⟩ := List.cons.inj h
      obtain ⟨back, rfl, hfound⟩ := hrest found hbehind
      exact ⟨back, rfl, hcross hfound⟩

/-- What a walk exposes is crossed up to there. -/
theorem exposes_of_glyphs {found others : List Glyph}
    (h : Walk.glyphs ⟨depth, 0⟩ text = found ++ ⟨c, true⟩ :: others) :
    Exposes depth text found c := by
  -- An escape is passed at once, so the induction is on the length.
  induction hlength : text.length using Nat.strongRecOn
    generalizing depth text found with
  | ind n ih =>
  subst hlength
  cases text with
  | nil =>
      simp [Walk.glyphs] at h
  | cons d rest =>
      have hshorter : ∀ {depth} found,
          Walk.glyphs ⟨depth, 0⟩ rest = found ++ ⟨c, true⟩ :: others →
          Exposes depth rest found c :=
        fun _ hrest => ih rest.length (by simp) hrest rfl
      rcases Walk.isTurn_cases d with rfl | hd | hd | hd
      · obtain ⟨after, hafter⟩ := exists_eq_escapeTail_append rest
        have htail : escapeTail (escapeTail rest ++ after) =
            escapeTail rest := by
          rw [← hafter]
        rw [hafter, Walk.glyphs_escape htail] at h
        obtain ⟨found, rfl, hfound⟩ := exists_append_of_notMem (by simp) h
        have hless : after.length < ('\\' :: rest).length := by
          rw [hafter]
          simp only [List.length_cons, List.length_append]
          omega
        obtain ⟨back, rfl, hcross⟩ := ih after.length hless hfound rfl
        refine ⟨back, ?_, ?_⟩
        · simp only [List.map_append, List.map_map, Function.comp_def,
            List.map_id', List.cons_append, List.append_assoc, ← hafter]
        · rw [List.map_append, List.map_map, Function.comp_def, List.map_id',
            List.cons_append]
          exact .escape htail hcross
      · rw [Walk.glyphs_opening hd] at h
        exact exposes_cons h of_decide_eq_true (.opening hd) hshorter
      · rw [Walk.glyphs_closing hd] at h
        exact exposes_cons h (by simp) (.closing hd) hshorter
      · rw [Walk.glyphs_other hd] at h
        exact exposes_cons h of_decide_eq_true (.other hd) hshorter

/-- A walk exposes what stands outside of brackets and escapes. -/
theorem outsideAt_iff (hc : Walk.isTurn c = false) {offset : Nat} :
    OutsideAt text c offset ↔
      ∃ found others, Walk.start.glyphs text = found ++ ⟨c, true⟩ :: others ∧
        byteLength (found.map Glyph.char) = offset := by
  constructor
  · rintro ⟨front, back, rfl, rfl, hcross⟩
    refine ⟨Walk.start.glyphs front, Walk.start.glyphs back, ?_, ?_⟩
    · rw [hcross.glyphs_append, glyphs_cons hc]
    · rw [Walk.map_char_glyphs]
  · rintro ⟨found, others, hfound, rfl⟩
    obtain ⟨back, rfl, hcross⟩ := exposes_of_glyphs hfound
    exact ⟨found.map Glyph.char, back, rfl, rfl, hcross⟩

end Walking

section Parting

variable {p : Char → Bool}

/-- The parts of a text between separators outside of brackets and escapes. -/
inductive Parted (p : Char → Bool) : Text → List Text → Prop
  | last {text : Text} : Hides p text → Parted p text [text]
  | next {front back : Text} {c : Char} {parts : List Text} :
      Hides p front → p c = true → Crosses 0 front (c :: back) 0 →
      Parted p back parts → Parted p (front ++ c :: back) (front :: parts)

theorem Parted.of_singleton {text part : Text} (h : Parted p text [part]) :
    text = part ∧ Hides p part := by
  cases h with
  | last hhides =>
      exact ⟨rfl, hhides⟩
  | next _ _ _ hback =>
      cases hback

theorem Parted.of_cons_cons
    {part second back : Text} {parts : List Text} {c : Char}
    (h : Parted p (part ++ c :: back) (part :: second :: parts)) :
    Hides p part ∧ Crosses 0 part (c :: back) 0 ∧
      Parted p back (second :: parts) := by
  generalize htext : part ++ c :: back = text at h
  cases h with
  | next hhides _ hcross hback =>
      obtain ⟨rfl, rfl⟩ := List.cons.inj (List.append_cancel_left htext)
      exact ⟨hhides, hcross, hback⟩

/-- Splitting finds the parts of a text. -/
theorem Parted.splitExposed_eq
    (hp : ∀ c, p c = true → Walk.isTurn c = false)
    {text : Text} {parts : List Text} (h : Parted p text parts) :
    splitExposed p text = parts := by
  induction h with
  | last hhides =>
      exact splitExposed_of_hides hhides
  | @next front back c parts hhides hc hcross _ ih =>
      have hmark : Glyph.shows p ⟨c, true⟩ = true := by
        simp [Glyph.shows, hc]
      rw [splitExposed, hcross.glyphs_append, glyphs_cons (hp c hc),
        splitWhere_append_cons hhides hmark, List.map_cons,
        Walk.map_char_glyphs, ← splitExposed, ih]

/-- Splitting parts a text. -/
theorem parted_splitExposed
    (hp : ∀ c, p c = true → Walk.isTurn c = false) (text : Text) :
    Parted p text (splitExposed p text) := by
  induction hlength : text.length using Nat.strongRecOn
    generalizing text with
  | ind n ih =>
  subst hlength
  by_cases hhides : Hides p text
  · rw [splitExposed_of_hides hhides]
    exact .last hhides
  · have hshown : ∃ glyph ∈ Walk.start.glyphs text,
        Glyph.shows p glyph = true := by
      simpa [Hides] using hhides
    obtain ⟨found, ⟨c, exposed⟩, others, hglyphs, hmark, hfound⟩ :=
      exists_first_separator hshown
    obtain ⟨rfl, hc⟩ := Bool.and_eq_true_iff.mp hmark
    obtain ⟨back, rfl, hcross⟩ := exposes_of_glyphs hglyphs
    have hfront : Walk.start.glyphs (found.map Glyph.char) = found := by
      have htake := Walk.glyphs_take_append Walk.start
        (found.map Glyph.char) (c :: back)
      rw [← htake, hglyphs, List.length_map, List.take_left]
    have hhidden : Hides p (found.map Glyph.char) := by
      rw [Hides, hfront]
      exact hfound
    have hless : back.length <
        (found.map Glyph.char ++ c :: back).length := by
      simp only [List.length_append, List.length_cons]
      omega
    have hparted := Parted.next hhidden hc hcross
      (ih back.length hless back rfl)
    have hsplit := hparted.splitExposed_eq hp
    rwa [← hsplit] at hparted

end Parting

end StylesheetPruning
