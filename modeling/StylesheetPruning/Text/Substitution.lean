import StylesheetPruning.Text.Basic

/-!
# Literal substitutions

A substitution replaces a fixed pattern by a shorter text.

**Algorithm.** The text is read once from the left. Where the pattern stands,
its replacement is written and reading goes on behind the match, so matches
never overlap and a match that only the replacement would create is not seen.

**Results.** A substitution never makes a text longer, and it changes nothing
exactly when it keeps the length.
-/

namespace StylesheetPruning

/-- A pattern and the shorter text that replaces it. -/
structure Substitution where
  pattern : Text
  replacement : Text
  shrinks : replacement.length < pattern.length

namespace Substitution

/--
Read a text from the left. The number counts characters of a match that are
still to be passed; the last text is what was written so far, in reverse.
-/
def apply.go (s : Substitution) : Text → Nat → Text → Text
  | [], _, written => written.reverse
  | _ :: rest, skip + 1, written => go s rest skip written
  | c :: rest, 0, written =>
      if s.pattern.isPrefixOf (c :: rest) then
        go s rest (s.pattern.length - 1) (s.replacement.reverse ++ written)
      else
        go s rest 0 (c :: written)

/-- Replace every match of the pattern, leftmost first. -/
def apply (s : Substitution) (text : Text) : Text :=
  apply.go s text 0 []

theorem apply.go_written (s : Substitution) (text : Text) (skip : Nat)
    (written : Text) :
    apply.go s text skip written =
      written.reverse ++ apply.go s text skip [] := by
  induction text generalizing skip written with
  | nil => simp [apply.go]
  | cons c rest ih =>
      cases skip with
      | succ skip =>
          simp only [apply.go]
          exact ih skip written
      | zero =>
          simp only [apply.go]
          split
          · rw [ih, ih _ (s.replacement.reverse ++ [])]
            simp
          · rw [ih, ih _ [c]]
            simp

theorem apply.go_skip (s : Substitution) (text : Text) (skip : Nat) :
    apply.go s text skip [] = s.apply (text.drop skip) := by
  induction text generalizing skip with
  | nil => simp [apply.go, apply]
  | cons c rest ih =>
      cases skip with
      | zero => rfl
      | succ skip =>
          simp only [apply.go, List.drop_succ_cons]
          exact ih skip

@[simp] theorem apply_nil (s : Substitution) : s.apply [] = [] := rfl

/-- A match in front is replaced and passed over. -/
theorem apply_pattern_append (s : Substitution) (rest : Text) :
    s.apply (s.pattern ++ rest) = s.replacement ++ s.apply rest := by
  obtain ⟨pattern, replacement, shrinks⟩ := s
  cases pattern with
  | nil => simp at shrinks
  | cons c tail =>
      rw [apply]
      simp only [List.cons_append, apply.go, List.isPrefixOf_cons_cons_self]
      have h : List.isPrefixOf tail (tail ++ rest) = true := by
        rw [List.isPrefixOf_iff_prefix]
        exact List.prefix_append tail rest
      rw [if_pos h, apply.go_written, apply.go_skip]
      simp

/-- A character where no match starts is kept. -/
theorem apply_cons_of_no_match (s : Substitution) (c : Char) (rest : Text)
    (h : ¬ s.pattern.isPrefixOf (c :: rest)) :
    s.apply (c :: rest) = c :: s.apply rest := by
  rw [apply]
  simp only [apply.go]
  rw [if_neg h, apply.go_written]
  rfl

/-- Where a match starts, the text is the pattern and something after it. -/
theorem apply_induction (s : Substitution) {P : Text → Prop} (nil : P [])
    (found : ∀ rest, P rest → P (s.pattern ++ rest))
    (kept : ∀ c rest, ¬ s.pattern.isPrefixOf (c :: rest) → P rest →
      P (c :: rest)) (text : Text) : P text := by
  generalize hn : text.length = n
  induction n using Nat.strongRecOn generalizing text with
  | _ n ih =>
      cases text with
      | nil => exact nil
      | cons c rest =>
          by_cases h : s.pattern.isPrefixOf (c :: rest)
          · obtain ⟨tail, ht⟩ := List.isPrefixOf_iff_prefix.mp h
            have hs := s.shrinks
            have hl := congrArg List.length ht
            simp only [List.length_append, List.length_cons] at hl hn
            rw [← ht]
            exact found tail (ih tail.length (by omega) tail rfl)
          · simp only [List.length_cons] at hn
            exact kept c rest h (ih rest.length (by omega) rest rfl)

/-- A substitution never makes a text longer. -/
theorem length_apply_le (s : Substitution) (text : Text) :
    (s.apply text).length ≤ text.length := by
  induction text using s.apply_induction with
  | nil => simp
  | found rest ih =>
      have hs := s.shrinks
      simp only [apply_pattern_append, List.length_append]
      omega
  | kept c rest h ih =>
      rw [apply_cons_of_no_match s c rest h]
      simpa using ih

/-- A substitution that keeps the length keeps the text. -/
theorem apply_eq_self_of_length (s : Substitution) {text : Text}
    (h : (s.apply text).length = text.length) : s.apply text = text := by
  induction text using s.apply_induction with
  | nil => rfl
  | found rest ih =>
      have hs := s.shrinks
      have hr := length_apply_le s rest
      simp only [apply_pattern_append, List.length_append] at h
      omega
  | kept c rest hc ih =>
      rw [apply_cons_of_no_match s c rest hc] at h ⊢
      rw [ih (by simpa using h)]

end Substitution

end StylesheetPruning
