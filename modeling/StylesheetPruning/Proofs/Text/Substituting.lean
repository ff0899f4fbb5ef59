import StylesheetPruning.Text.Substitution

/-!
# What a substitution leaves alone

**Results.**
* `apply_eq_self`: a text without the pattern stays as it is.
* `apply_append`: what the pattern does not hold parts a text for a
  substitution.
-/

namespace StylesheetPruning
namespace Substitution

theorem apply_eq_self {s : Substitution} {text : Text}
    (h : ¬ s.pattern <:+: text) : s.apply text = text := by
  induction text using s.apply_induction with
  | nil =>
      rfl
  | found rest ih =>
      exact absurd (List.prefix_append _ _).isInfix h
  | kept c rest hc ih =>
      rw [List.infix_cons_iff, not_or] at h
      rw [s.apply_cons_of_no_match c rest hc, ih h.2]

/-- A text that a substitution leaves alone does not have its pattern. -/
theorem not_pattern_of_apply_eq_self {s : Substitution} {text : Text}
    (h : s.apply text = text) : ¬ s.pattern <:+: text := by
  induction text using s.apply_induction with
  | nil =>
      intro hwithin
      have hnil := List.infix_nil.mp hwithin
      have hshrinks := s.shrinks
      rw [hnil] at hshrinks
      cases hshrinks
  | found rest ih =>
      have hlength := congrArg List.length h
      have hshrinks := s.shrinks
      have hle := s.length_apply_le rest
      rw [s.apply_pattern_append] at hlength
      simp only [List.length_append] at hlength
      omega
  | kept c rest hc ih =>
      rw [s.apply_cons_of_no_match c rest hc, List.cons.injEq] at h
      rw [List.infix_cons_iff, not_or]
      exact ⟨fun hprefix => hc (List.isPrefixOf_iff_prefix.mpr hprefix),
        ih h.2⟩

/-- What a substitution writes is in the text or in the replacement. -/
theorem mem_of_mem_apply {s : Substitution} {text : Text} {c : Char}
    (h : c ∈ s.apply text) : c ∈ text ∨ c ∈ s.replacement := by
  induction text using s.apply_induction with
  | nil =>
      exact .inl h
  | found rest ih =>
      rw [s.apply_pattern_append, List.mem_append] at h
      rcases h with h | h
      · exact .inr h
      · rcases ih h with h | h
        · exact .inl (List.mem_append_right _ h)
        · exact .inr h
  | kept d rest hd ih =>
      rw [s.apply_cons_of_no_match d rest hd, List.mem_cons] at h
      rcases h with rfl | h
      · exact .inl (by simp)
      · rcases ih h with h | h
        · exact .inl (List.mem_cons_of_mem d h)
        · exact .inr h

theorem prefix_of_not_mem
    {pattern front back : Text} {c : Char} (hc : c ∉ pattern)
    (h : pattern <+: front ++ c :: back) : pattern <+: front := by
  rcases List.prefix_or_prefix_of_prefix h (List.prefix_append front _) with
    hprefix | ⟨tail, htail⟩
  · exact hprefix
  · cases tail with
    | nil =>
        rw [List.append_nil] at htail
        subst htail
        exact List.prefix_refl front
    | cons d tail =>
        obtain ⟨after, hafter⟩ := h
        rw [← htail, List.append_assoc, List.append_cancel_left_eq,
          List.cons_append, List.cons.injEq] at hafter
        exact absurd (by simp [← htail, hafter.1]) hc

/-- A substitution works on both sides of a character that it does not touch. -/
theorem apply_append
    (s : Substitution) {c : Char} (hc : c ∉ s.pattern) (front back : Text) :
    s.apply (front ++ c :: back) = s.apply front ++ c :: s.apply back := by
  have hpattern : s.pattern ≠ [] := by
    intro hnil
    have hshrinks := s.shrinks
    simp [hnil] at hshrinks
  induction front using s.apply_induction with
  | nil =>
      refine s.apply_cons_of_no_match c back ?_
      rw [List.isPrefixOf_iff_prefix]
      intro hprefix
      have hnil := @prefix_of_not_mem s.pattern [] back c hc hprefix
      exact hpattern (List.prefix_nil.mp hnil)
  | found rest ih =>
      rw [List.append_assoc, s.apply_pattern_append, s.apply_pattern_append,
        ih, List.append_assoc]
  | kept d rest hmatch ih =>
      rw [List.isPrefixOf_iff_prefix] at hmatch
      have hmatch' : ¬ s.pattern.isPrefixOf (d :: (rest ++ c :: back)) = true := by
        rw [List.isPrefixOf_iff_prefix]
        intro hprefix
        exact hmatch
          (@prefix_of_not_mem s.pattern (d :: rest) back c hc hprefix)
      rw [List.cons_append, s.apply_cons_of_no_match d _ hmatch', ih,
        s.apply_cons_of_no_match d rest (by rwa [List.isPrefixOf_iff_prefix])]
      rfl

end Substitution
end StylesheetPruning
