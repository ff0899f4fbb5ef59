import StylesheetPruning.Proofs.Stylesheet.Survival

/-!
# Changes of spacing are calm

A change of spacing never touches an escape, a quote or a mark of a comment,
and in a calm reading no line break ends a string. So every character that is
no gap keeps its role.

**Results.** `exists_reads_respaced`: a stylesheet that is read calmly is read
calmly in normal spacing, with the same gist.
-/

namespace StylesheetPruning

section Steps

variable {state : Lexing}

/-- A line break outside of strings is read like a space. -/
theorem step_space_of_gap
    {c : Char} {next : Option Char} {role : Role}
    (hc : isGap c = true) (hcalm : calmly state ⟨c, role⟩)
    (hrole : (state.step c next).2 = role) :
    state.step ' ' next = state.step c next := by
  obtain ⟨huncommented, hquoted⟩ := hcalm
  simp only [isGap, isLineBreak, Bool.or_eq_true, decide_eq_true_eq] at hc
  subst hrole
  cases state with
  | plain =>
      rcases hc with rfl | rfl | rfl <;> rfl
  | escaped =>
      rfl
  | commentOpen =>
      rfl
  | comment =>
      simp only [Lexing.step] at huncommented
      split at huncommented <;> simp at huncommented
  | commentClose =>
      rfl
  | quoted quote =>
      rcases hc with rfl | rfl | rfl
      · rfl
      · cases hquoted
      · cases hquoted
  | quotedEscaped quote =>
      rfl

/-- In front of a line break that ends no string, as in front of a space. -/
theorem step_next_gap
    {d c : Char} (hc : isGap c = true)
    (hquoted : ((state.step d (some c)).1.isQuoted && isLineBreak c) = false) :
    state.step d (some ' ') = state.step d (some c) := by
  have hstar : c ≠ '*' ∧ c ≠ '/' := by
    simp only [isGap, isLineBreak, Bool.or_eq_true, decide_eq_true_eq] at hc
    rcases hc with rfl | rfl | rfl <;> decide
  cases state with
  | plain =>
      simp [Lexing.step, hstar.1]
  | escaped =>
      rfl
  | commentOpen =>
      rfl
  | comment =>
      simp [Lexing.step, hstar.2]
  | commentClose =>
      rfl
  | quoted quote =>
      by_cases hend : d = quote ∨ isLineBreak d = true
      · simp only [Lexing.step, if_pos hend]
      · cases hbreak : isLineBreak c with
        | false =>
            have hspace : isLineBreak ' ' = false := rfl
            simp [Lexing.step, hbreak, hspace]
        | true =>
            simp [Lexing.step, hend, hbreak, Lexing.isQuoted] at hquoted
  | quotedEscaped quote =>
      rfl

/-- A space is idle where an escape does not reach. -/
theorem step_space_of_not_escaped
    {next : Option Char} (hproper : state.Proper)
    (hescaped : state ≠ .escaped ∧ ∀ quote, state ≠ .quotedEscaped quote)
    (hrole : (state.step ' ' next).2 = .code ∨
      (state.step ' ' next).2 = .quoted) :
    (state.step ' ' next).1 = state := by
  cases state with
  | plain =>
      rfl
  | escaped =>
      exact absurd rfl hescaped.1
  | commentOpen =>
      simp [Lexing.step] at hrole
  | comment =>
      simp only [Lexing.step] at hrole
      split at hrole <;> simp at hrole
  | commentClose =>
      simp [Lexing.step] at hrole
  | quoted quote =>
      have hquote : quote = '"' ∨ quote = '\'' := by
        simpa [Lexing.Proper, Lexing.isQuote] using hproper
      rcases hquote with rfl | rfl <;> rfl
  | quotedEscaped quote =>
      exact absurd rfl (hescaped.2 quote)

/-- A character that drops the space behind it ends no escape early. -/
theorem step_behind
    {c : Char} (hc : closesBehind c = true) (next next' : Option Char)
    (hrole : (state.step c next).2 = .code ∨
      (state.step c next).2 = .quoted) :
    state.step c next' = state.step c next ∧
      (state.step c next).1 ≠ .escaped ∧
      ∀ quote, (state.step c next).1 ≠ .quotedEscaped quote := by
  have hmarks : c ≠ '/' ∧ c ≠ '\\' := by
    simp only [closesBehind, Bool.or_eq_true, decide_eq_true_eq] at hc
    rcases hc with ((rfl | rfl) | rfl) | rfl <;> decide
  cases state with
  | plain =>
      simp only [Lexing.step, hmarks.1, hmarks.2, false_and, if_false]
      split <;> simp
  | escaped =>
      simp [Lexing.step]
  | commentOpen =>
      simp [Lexing.step] at hrole
  | comment =>
      simp only [Lexing.step] at hrole
      split at hrole <;> simp at hrole
  | commentClose =>
      simp [Lexing.step] at hrole
  | quoted quote =>
      simp only [Lexing.step, hmarks.2, false_and, if_false]
      split <;> simp
  | quotedEscaped quote =>
      simp [Lexing.step]

/-- A character that drops the space in front of it is read as behind it. -/
theorem step_before
    {c : Char} (hc : closesBefore c = true) (next : Option Char)
    (hproper : state.Proper)
    (hrole : (state.step ' ' (some c)).2 = .code ∨
      (state.step ' ' (some c)).2 = .quoted) :
    state.step c next = (state.step ' ' (some c)).1.step c next := by
  simp only [closesBefore, Bool.or_eq_true, decide_eq_true_eq] at hc
  cases state with
  | plain =>
      rfl
  | escaped =>
      rcases hc with (rfl | rfl) | rfl <;> rfl
  | commentOpen =>
      simp [Lexing.step] at hrole
  | comment =>
      simp only [Lexing.step] at hrole
      split at hrole <;> simp at hrole
  | commentClose =>
      simp [Lexing.step] at hrole
  | quoted quote =>
      have hquote : quote = '"' ∨ quote = '\'' := by
        simpa [Lexing.Proper, Lexing.isQuote] using hproper
      rcases hquote with rfl | rfl <;> rfl
  | quotedEscaped quote =>
      have hquote : quote = '"' ∨ quote = '\'' := by
        simpa [Lexing.Proper, Lexing.isQuote] using hproper
      rcases hc with (rfl | rfl) | rfl <;> rcases hquote with rfl | rfl <;> rfl

theorem step_next_before
    {c : Char} (hc : closesBefore c = true) (d : Char) :
    state.step d (some c) = state.step d (some ' ') := by
  have hmarks : c ≠ '*' ∧ c ≠ '/' ∧ isLineBreak c = false := by
    simp only [closesBefore, Bool.or_eq_true, decide_eq_true_eq] at hc
    rcases hc with (rfl | rfl) | rfl <;> decide
  have hspace : isLineBreak ' ' = false := rfl
  cases state <;> simp [Lexing.step, hmarks, hspace]

end Steps

theorem exists_roles_of_chars_pair
    {cells : List Cell} {c d : Char} (h : chars cells = [c, d]) :
    ∃ role role', cells = [⟨c, role⟩, ⟨d, role'⟩] := by
  rcases cells with _ | ⟨cell, _ | ⟨cell', _ | ⟨cell'', rest⟩⟩⟩
  · cases h
  · cases h
  · simp only [chars_cons, chars_nil, List.cons.injEq, and_true] at h
    obtain ⟨rfl, rfl⟩ := h
    exact ⟨cell.role, cell'.role, rfl⟩
  · cases h

/-- One change of spacing, read from where it begins. -/
theorem exists_reads_change
    {old new : Text} (hchange : SpacingChange old new)
    {cells back : List Cell} (hcells : chars cells = old)
    {state state' : Lexing} {next : Option Char} (hproper : state.Proper)
    (h : Reads calmly state (cells ++ back) next state') :
    ∃ cells', chars cells' = new ∧ gist cells' = gist cells ∧
      Reads calmly state (cells' ++ back) next state' ∧
      ∀ s cell, calmly s cell →
        s.step cell.char (nextChar (cells ++ back) next) = (state, cell.role) →
        s.step cell.char (nextChar (cells' ++ back) next) =
          (state, cell.role) := by
  cases hchange with
  | @gap c hc =>
      obtain ⟨⟨_, role⟩, rfl, rfl⟩ : ∃ cell, cells = [cell] ∧ cell.char = c := by
        simpa [chars] using hcells
      simp only at hc
      simp only [List.cons_append, List.nil_append, Reads] at h
      obtain ⟨hcalm, hrole, hback⟩ := h
      have hstep := step_space_of_gap hc hcalm hrole
      refine ⟨[⟨' ', role⟩], rfl, ?_, ⟨⟨hcalm.1, ?_⟩, ?_, ?_⟩, ?_⟩
      · have hspace : isGap ' ' = true := rfl
        rw [gist_cons, gist_cons, if_pos hc, if_pos hspace]
      · exact Bool.and_false _
      · rw [← hrole]
        exact congrArg Prod.snd hstep
      · rw [← hstep] at hback
        exact hback
      · intro s cell _ hlast
        have hnext := @step_next_gap s cell.char _ hc
        simp only [List.cons_append, List.nil_append, nextChar_cons] at hlast ⊢
        rw [hlast] at hnext
        exact hnext hcalm.2
  | @behind c hc =>
      obtain ⟨role, role', rfl⟩ := exists_roles_of_chars_pair hcells
      simp only [List.cons_append, List.nil_append, nextChar_cons, Reads] at h
      obtain ⟨hcalm, hrole, hcalm', hrole', hback⟩ := h
      obtain ⟨hsame, hescaped⟩ :=
        @step_behind state _ hc (some ' ') (nextChar back next)
          (hrole ▸ hcalm.1)
      have hidle := step_space_of_not_escaped
        (proper_step hproper _ (some ' ')) hescaped (hrole' ▸ hcalm'.1)
      refine ⟨[⟨c, role⟩], rfl, ?_, ⟨hcalm, ?_, ?_⟩, ?_⟩
      · simp [gist_cons, isGap]
      · rw [← hrole]
        exact congrArg Prod.snd hsame
      · rw [hidle, ← hsame] at hback
        exact hback
      · intro s cell _ hlast
        exact hlast
  | @before c hc =>
      obtain ⟨role, role', rfl⟩ := exists_roles_of_chars_pair hcells
      simp only [List.cons_append, List.nil_append, nextChar_cons, Reads] at h
      obtain ⟨hcalm, hrole, hcalm', hrole', hback⟩ := h
      have hsame := step_before hc (nextChar back next) hproper
        (hrole ▸ hcalm.1)
      have hunbroken : isLineBreak c = false := by
        simp only [closesBefore, Bool.or_eq_true, decide_eq_true_eq] at hc
        rcases hc with (rfl | rfl) | rfl <;> rfl
      refine ⟨[⟨c, role'⟩], rfl, ?_, ⟨⟨hcalm'.1, ?_⟩, ?_, ?_⟩, ?_⟩
      · simp [gist_cons, isGap]
      · rw [hunbroken]
        exact Bool.and_false _
      · rw [← hrole']
        exact congrArg Prod.snd hsame
      · rw [← hsame] at hback
        exact hback
      · intro s cell _ hlast
        simp only [List.cons_append, nextChar_cons] at hlast ⊢
        rw [step_next_before hc]
        exact hlast

/-- A stylesheet is read calmly after a change of spacing. -/
theorem exists_reads_respacedOnce
    {text text' : Text} (honce : RespacedOnce text text')
    {cells : List Cell} {state : Lexing} (hcells : chars cells = text)
    (h : Reads calmly .plain cells none state) :
    ∃ cells', chars cells' = text' ∧ gist cells' = gist cells ∧
      Reads calmly .plain cells' none state := by
  obtain ⟨front, old, new, back, hchange, rfl, rfl⟩ := honce
  obtain ⟨before, behind, rfl, hbefore, hbehind⟩ :=
    List.map_eq_append_iff.mp hcells
  obtain ⟨changed, after, rfl, hchanged, hafter⟩ :=
    List.map_eq_append_iff.mp hbehind
  obtain ⟨between, hfront, hrest⟩ := reads_append.mp h
  obtain ⟨changed', hchars, hgist, hread, hlast⟩ :=
    exists_reads_change hchange hchanged (hfront.proper trivial) hrest
  refine ⟨before ++ (changed' ++ after), ?_, ?_, ?_⟩
  · rw [chars_append, chars_append, hchars]
    exact congrArg₂ _ hbefore (congrArg₂ _ rfl hafter)
  · simp [hgist]
  · exact (hfront.change_next hlast).append hread

/-- A stylesheet is read calmly after any changes of spacing. -/
theorem exists_reads_respaced
    {text text' : Text} (hrespaced : Respaced text text')
    {cells : List Cell} {state : Lexing} (hcells : chars cells = text)
    (h : Reads calmly .plain cells none state) :
    ∃ cells', chars cells' = text' ∧ gist cells' = gist cells ∧
      Reads calmly .plain cells' none state := by
  induction hrespaced with
  | refl =>
      exact ⟨cells, hcells, rfl, h⟩
  | tail _ honce ih =>
      obtain ⟨cells', hcells', hgist', hread'⟩ := ih
      obtain ⟨cells'', hcells'', hgist'', hread''⟩ :=
        exists_reads_respacedOnce honce hcells' hread'
      exact ⟨cells'', hcells'', hgist''.trans hgist', hread''⟩

end StylesheetPruning
