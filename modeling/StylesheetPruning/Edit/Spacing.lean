import StylesheetPruning.Text.Substitution

/-!
# Normal spacing

**Gaps.** A run of spaces and line breaks becomes one space, so that words on
two lines never run together. Tabs are left alone.

**Closing up.** Spaces beside some marks are taken away by literal
substitutions, round after round until a round changes nothing. Every change
makes the text shorter, so a text has no more rounds than characters.

**Results.** `normalSpacing_eq_of_fixed`: a text that collapsing and every
substitution leave alone is left alone.
-/

namespace StylesheetPruning

section Gaps

/-- Whether a character is a space or a line break. -/
def isGap (c : Char) : Bool :=
  c = ' ' || isLineBreak c

/-- Put a character in front of a text in which every gap is one space. -/
def squeeze (c : Char) (rest : Text) : Text :=
  if isGap c then
    if rest.head? = some ' ' then rest else ' ' :: rest
  else
    c :: rest

/-- Write every run of spaces and line breaks as one space. -/
def collapseGaps (text : Text) : Text :=
  text.foldr squeeze []

@[simp] theorem collapseGaps_nil : collapseGaps [] = [] := rfl

@[simp] theorem collapseGaps_cons (c : Char) (rest : Text) :
    collapseGaps (c :: rest) = squeeze c (collapseGaps rest) := rfl

/-- Collapsing leaves no line break. -/
theorem not_isLineBreak_of_mem_collapseGaps {text : Text} {c : Char}
    (h : c ∈ collapseGaps text) : isLineBreak c = false := by
  induction text with
  | nil => simp at h
  | cons d rest ih =>
      simp only [collapseGaps_cons, squeeze] at h
      split at h
      · split at h
        · exact ih h
        · rcases List.mem_cons.mp h with rfl | h
          · rfl
          · exact ih h
      · next hd =>
          rcases List.mem_cons.mp h with rfl | h
          · simp only [isGap, Bool.or_eq_true, not_or] at hd
            simpa using hd.2
          · exact ih h

end Gaps

section ClosingUp

/-- The spaces that carry no meaning. -/
def looseSpaces : List Substitution :=
  [ ⟨": ".toList, ":".toList, by decide⟩,
    ⟨" \x7b".toList, "\x7b".toList, by decide⟩,
    ⟨" (".toList, "(".toList, by decide⟩,
    ⟨", ".toList, ",".toList, by decide⟩,
    ⟨" + ".toList, "+".toList, by decide⟩ ]

/-- Apply every substitution of a table once, in order. -/
def closeRound (table : List Substitution) (text : Text) : Text :=
  table.foldl (fun text s => s.apply text) text

/-- Repeat a round until it keeps the length, at most as often as given. -/
def closeRounds (table : List Substitution) : Nat → Text → Text
  | 0, text => text
  | n + 1, text =>
      let text' := closeRound table text
      if text'.length = text.length then text'
      else closeRounds table n text'

/-- Repeat the substitutions of a table until none applies. -/
def closeUp (table : List Substitution) (text : Text) : Text :=
  closeRounds table text.length text

/-- Normal spacing under a table of substitutions. -/
def normalSpacingWith (table : List Substitution) (text : Text) : Text :=
  closeUp table (collapseGaps text)

/-- A text in normal spacing. -/
def normalSpacing (text : Text) : Text :=
  normalSpacingWith looseSpaces text

/-- A round never makes a text longer. -/
theorem length_closeRound_le (table : List Substitution) (text : Text) :
    (closeRound table text).length ≤ text.length := by
  induction table generalizing text with
  | nil => simp [closeRound]
  | cons s rest ih =>
      exact Nat.le_trans (ih (s.apply text)) (s.length_apply_le text)

/-- A round that keeps the length keeps the text. -/
theorem closeRound_eq_self_of_length (table : List Substitution)
    {text : Text} (h : (closeRound table text).length = text.length) :
    closeRound table text = text := by
  induction table generalizing text with
  | nil => rfl
  | cons s rest ih =>
      have h1 := length_closeRound_le rest (s.apply text)
      have h2 := s.length_apply_le text
      have h3 : (closeRound rest (s.apply text)).length = text.length := h
      have h4 : s.apply text = text :=
        s.apply_eq_self_of_length (by omega)
      have h5 : closeRound (s :: rest) text = closeRound rest text := by
        simp only [closeRound, List.foldl_cons, h4]
      rw [h5] at h ⊢
      exact ih h

theorem closeRound_closeRounds (table : List Substitution) (n : Nat)
    (text : Text) (h : text.length ≤ n) :
    closeRound table (closeRounds table n text) =
      closeRounds table n text := by
  induction n generalizing text with
  | zero =>
      have hnil : text = [] := List.length_eq_zero_iff.mp (by omega)
      subst hnil
      apply closeRound_eq_self_of_length
      have := length_closeRound_le table []
      simp only [List.length_nil, closeRounds] at this ⊢
      omega
  | succ n ih =>
      simp only [closeRounds]
      split
      · next heq =>
          have hfix := closeRound_eq_self_of_length table heq
          rw [hfix, hfix]
      · next hne =>
          have hle := length_closeRound_le table text
          exact ih _ (by omega)

/-- After closing up, another round changes nothing. -/
theorem closeRound_closeUp (table : List Substitution) (text : Text) :
    closeRound table (closeUp table text) = closeUp table text :=
  closeRound_closeRounds table text.length text (Nat.le_refl _)

/-- A text that collapsing and a round leave alone is left alone. -/
theorem normalSpacing_eq_of_fixed {text : Text}
    (hgaps : collapseGaps text = text)
    (hround : closeRound looseSpaces text = text) :
    normalSpacing text = text := by
  simp only [normalSpacing, normalSpacingWith, closeUp, hgaps]
  cases h : text.length with
  | zero => rfl
  | succ n => simp [closeRounds, hround]

end ClosingUp

end StylesheetPruning
