import StylesheetPruning.Proofs.Selector.Grammar

/-!
# Printed texts

Every part of a printed selector list is closed and coded, and shows no
character that would cut it. `Foreign` conditions are those that no character
of an identifier satisfies.

**Results.** `closed`, `coded` and `hides` for heads, conditions and pseudo
selectors, and `Condition.begins`: a condition begins at a mark and shows no
other.
-/

namespace StylesheetPruning
namespace Grammar

section Separators

/-- A condition that no character of an identifier satisfies. -/
def Foreign (p : Char → Bool) : Prop :=
  ∀ c, isNameChar c = true → p c = false

theorem isCombinator_cases
    {c : Char} (h : SimpleSelector.isCombinator c = true) :
    isSpace c = true ∨ c = '>' ∨ c = '~' ∨ c = '+' ∨ c = '|' := by
  simpa only [SimpleSelector.isCombinator, Bool.or_eq_true, decide_eq_true_eq,
    or_assoc] using h

theorem isMark_cases {c : Char} (h : SimpleSelector.isMark c = true) :
    c = '.' ∨ c = '#' ∨ c = '[' := by
  simpa only [SimpleSelector.isMark, Bool.or_eq_true, decide_eq_true_eq,
    or_assoc] using h

theorem foreign_isCombinator : Foreign SimpleSelector.isCombinator := by
  intro c hname
  rw [Bool.eq_false_iff]
  intro hc
  rcases isCombinator_cases hc with hspace | rfl | rfl | rfl | rfl
  · rw [isSpace_of_isNameChar hname] at hspace
    cases hspace
  all_goals
    cases hname

theorem foreign_isMark : Foreign SimpleSelector.isMark := by
  intro c hname
  rw [Bool.eq_false_iff]
  intro hc
  rcases isMark_cases hc with rfl | rfl | rfl <;> cases hname

theorem foreign_eq {mark : Char} (h : isNameChar mark = false) :
    Foreign (fun c => c = mark) := by
  intro c hname
  rw [decide_eq_false_iff_not]
  rintro rfl
  exact absurd hname (by simp [h])

end Separators

section Parts

variable {p : Char → Bool}

theorem isNameChar_of_isAlpha {c : Char} (h : c.isAlpha = true) :
    isNameChar c = true := by
  simp [isNameChar, Char.isAlphanum, h]

theorem ElementName.forall_isNameChar (name : ElementName) :
    ∀ c ∈ name.first :: name.rest, isNameChar c = true := by
  intro c hc
  rcases List.mem_cons.mp hc with rfl | hc
  · exact isNameChar_of_isAlpha name.isAlpha_first
  · have hplain := name.rest_plain c hc
    rcases Bool.or_eq_true_iff.mp hplain with h | h
    · simp [isNameChar, h]
    · rw [of_decide_eq_true h]
      rfl

theorem Name.spells (name : Name) : Spells (serialize name.text) name.text :=
  spells_serialize name.spelled

theorem isTurn_of_isArgumentChar {c : Char} (h : isArgumentChar c = true) :
    Walk.isTurn c = false ∧ Lexing.isTurn c = false := by
  simp only [isArgumentChar, List.mem_cons, List.not_mem_nil, or_false,
    not_or, decide_eq_true_eq] at h
  simp [Walk.isTurn, Lexing.isTurn, Lexing.isQuote, h]

theorem isArgumentChar_of_isContentChar
    {c : Char} (h : isContentChar c = true) :
    isArgumentChar c = true ∧ c ≠ '*' := by
  simp only [isContentChar, List.mem_cons, List.not_mem_nil, or_false,
    not_or, decide_eq_true_eq] at h
  simp [isArgumentChar, h]

theorem Head.closed (head : Head) : Closed head.print := by
  cases head with
  | universal =>
      exact closed_singleton rfl
  | element name =>
      exact closed_of_forall
        (fun c hc => isTurn_of_isNameChar (name.forall_isNameChar c hc))

theorem Head.coded (head : Head) : Coded head.print := by
  cases head with
  | universal =>
      exact coded_singleton rfl
  | element name =>
      exact coded_of_forall
        (fun c hc => lexingIsTurn_of_isNameChar (name.forall_isNameChar c hc))

theorem Head.hides (head : Head) (hp : Foreign p) (hstar : p '*' = false) :
    Hides p head.print := by
  cases head with
  | universal =>
      exact hides_cons rfl hstar hides_nil
  | element name =>
      refine hides_of_forall ?_
      intro c hc
      have hname := name.forall_isNameChar c hc
      exact ⟨isTurn_of_isNameChar hname, hp c hname⟩

theorem Content.forall_not_isTurn (content : Content) :
    ∀ c ∈ content.text, Walk.isTurn c = false := by
  intro c hc
  have hplain := isArgumentChar_of_isContentChar (content.plain c hc)
  exact (isTurn_of_isArgumentChar hplain.1).1

theorem Condition.closed (condition : Condition) : Closed condition.print := by
  cases condition with
  | className name =>
      exact (closed_singleton rfl).append name.spells.closed
  | identifier name =>
      exact (closed_singleton rfl).append name.spells.closed
  | bracketed content =>
      exact (Walk.passes_bracketed (.inr rfl) (.inr rfl)
        content.forall_not_isTurn).closed

theorem Condition.coded (condition : Condition) : Coded condition.print := by
  cases condition with
  | className name =>
      exact (coded_singleton rfl).append name.spells.coded
  | identifier name =>
      exact (coded_singleton rfl).append name.spells.coded
  | bracketed content =>
      have htext : Coded content.text := by
        refine coded_of_forall ?_
        intro c hc
        have hplain := isArgumentChar_of_isContentChar (content.plain c hc)
        exact (isTurn_of_isArgumentChar hplain.1).2
      exact ((coded_singleton rfl).append htext).append (coded_singleton rfl)

theorem Condition.hides
    (condition : Condition) (hp : Foreign p)
    (hmark : ∀ c, SimpleSelector.isMark c = true → p c = false) :
    Hides p condition.print := by
  cases condition with
  | className name =>
      exact hides_cons rfl (hmark '.' rfl) (name.spells.hides hp)
  | identifier name =>
      exact hides_cons rfl (hmark '#' rfl) (name.spells.hides hp)
  | bracketed content =>
      exact hides_bracketed (.inr rfl) (.inr rfl) content.forall_not_isTurn
        (hmark '[' rfl)

theorem Condition.begins (condition : Condition) :
    Begins SimpleSelector.isMark condition.print := by
  cases condition with
  | className name =>
      exact begins_cons rfl rfl (name.spells.hides foreign_isMark)
  | identifier name =>
      exact begins_cons rfl rfl (name.spells.hides foreign_isMark)
  | bracketed content =>
      exact begins_bracketed (.inr rfl) (.inr rfl) content.forall_not_isTurn
        rfl

end Parts

section Pseudos

variable {p : Char → Bool}

/-- The arguments of a pseudo selector with their brackets. -/
def Pseudo.tail (pseudo : Pseudo) : Text :=
  match pseudo.arguments with
  | none => []
  | some text => ['('] ++ text ++ [')']

/-- The colons of a pseudo selector. -/
def Pseudo.colons (pseudo : Pseudo) : Text :=
  if pseudo.double then [':', ':'] else [':']

theorem Pseudo.print_eq (pseudo : Pseudo) :
    pseudo.print = pseudo.colons ++ (pseudo.word ++ pseudo.tail) := rfl

theorem Pseudo.colons_eq (pseudo : Pseudo) :
    pseudo.colons = [':'] ∨ pseudo.colons = [':', ':'] := by
  cases h : pseudo.double <;> simp [colons, h]

theorem Pseudo.isNameChar_of_mem_word (pseudo : Pseudo) :
    ∀ c ∈ pseudo.word, isNameChar c = true := by
  intro c hc
  rcases Bool.or_eq_true_iff.mp (pseudo.word_plain c hc) with h | h
  · exact isNameChar_of_isAlpha h
  · rw [of_decide_eq_true h]
    rfl

theorem Pseudo.tail_cases (pseudo : Pseudo) :
    pseudo.tail = [] ∨ ∃ text, pseudo.tail = ['('] ++ text ++ [')'] ∧
      ∀ c ∈ text, isArgumentChar c = true := by
  cases h : pseudo.arguments with
  | none =>
      exact .inl (by rw [tail, h])
  | some text =>
      exact .inr ⟨text, by rw [tail, h], pseudo.arguments_plain text h⟩

theorem Pseudo.closed (pseudo : Pseudo) : Closed pseudo.print := by
  have hcolons : Closed pseudo.colons := by
    rcases pseudo.colons_eq with h | h <;> rw [h] <;>
      exact closed_of_forall (List.all_iff_forall_prop.mp rfl)
  have hword : Closed pseudo.word :=
    closed_of_forall
      (fun c hc => isTurn_of_isNameChar (pseudo.isNameChar_of_mem_word c hc))
  have htail : Closed pseudo.tail := by
    rcases pseudo.tail_cases with h | ⟨text, h, hplain⟩ <;> rw [h]
    · exact closed_nil
    · exact (Walk.passes_bracketed (.inl rfl) (.inl rfl)
        (fun c hc => (isTurn_of_isArgumentChar (hplain c hc)).1)).closed
  exact hcolons.append (hword.append htail)

theorem Pseudo.coded (pseudo : Pseudo) : Coded pseudo.print := by
  have hcolons : Coded pseudo.colons := by
    rcases pseudo.colons_eq with h | h <;> rw [h] <;>
      exact coded_of_forall (List.all_iff_forall_prop.mp rfl)
  have hword : Coded pseudo.word :=
    coded_of_forall
      (fun c hc =>
        lexingIsTurn_of_isNameChar (pseudo.isNameChar_of_mem_word c hc))
  have htail : Coded pseudo.tail := by
    rcases pseudo.tail_cases with h | ⟨text, h, hplain⟩ <;> rw [h]
    · exact coded_nil
    · have htext : Coded text :=
        coded_of_forall (fun c hc => (isTurn_of_isArgumentChar (hplain c hc)).2)
      exact ((coded_singleton rfl).append htext).append (coded_singleton rfl)
  exact hcolons.append (hword.append htail)

theorem Pseudo.hides
    (pseudo : Pseudo) (hp : Foreign p)
    (hcolon : p ':' = false) (hopen : p '(' = false) :
    Hides p pseudo.print := by
  have hword : ∀ c ∈ pseudo.word, Walk.isTurn c = false ∧ p c = false := by
    intro c hc
    have hname := pseudo.isNameChar_of_mem_word c hc
    exact ⟨isTurn_of_isNameChar hname, hp c hname⟩
  have hclosed : Closed pseudo.word :=
    closed_of_forall (fun c hc => (hword c hc).1)
  have htail : Hides p pseudo.tail := by
    rcases pseudo.tail_cases with h | ⟨text, h, hplain⟩ <;> rw [h]
    · exact hides_nil
    · exact hides_bracketed (.inl rfl) (.inl rfl)
        (fun c hc => (isTurn_of_isArgumentChar (hplain c hc)).1) hopen
  have hrest : Hides p (pseudo.word ++ pseudo.tail) :=
    (hides_of_forall hword).append hclosed htail
  rw [print_eq]
  rcases pseudo.colons_eq with h | h <;> rw [h]
  · exact hides_cons rfl hcolon hrest
  · exact hides_cons rfl hcolon (hides_cons rfl hcolon hrest)

/-- A pseudo selector begins with a colon. -/
theorem Pseudo.exists_print_eq (pseudo : Pseudo) :
    ∃ rest, pseudo.print = ':' :: rest := by
  rw [print_eq]
  rcases pseudo.colons_eq with h | h <;> rw [h]
  · exact ⟨_, rfl⟩
  · exact ⟨_, rfl⟩

/-- A pseudo selector does not end with a space. -/
theorem Pseudo.trimEnd_print (pseudo : Pseudo) :
    trimEnd pseudo.print = pseudo.print := by
  have hword : ∀ c ∈ pseudo.word, isSpace c = false :=
    fun c hc => isSpace_of_isNameChar (pseudo.isNameChar_of_mem_word c hc)
  have hcolons : ∀ c ∈ pseudo.colons, isSpace c = false := by
    rcases pseudo.colons_eq with h | h <;> rw [h] <;>
      exact List.all_iff_forall_prop.mp rfl
  rw [print_eq]
  rcases pseudo.tail_cases with h | ⟨text, h, -⟩ <;> rw [h]
  · rw [List.append_nil]
    refine trimEnd_of_forall ?_
    intro c hc
    rcases List.mem_append.mp hc with hc | hc
    · exact hcolons c hc
    · exact hword c hc
  · rw [← List.append_assoc, ← List.append_assoc]
    exact trimEnd_append_of_eq_self (by simp) rfl _

end Pseudos

end Grammar
end StylesheetPruning
