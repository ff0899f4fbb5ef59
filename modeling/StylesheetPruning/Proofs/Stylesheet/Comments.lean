import StylesheetPruning.Proofs.Stylesheet.Calm

/-!
# Stylesheets without comments

A character of a comment is found at its start: where no cell starts a comment,
none is part of one.

**Results.**
* `commentSpans_eq_nil_iff`: comments are counted by the cells that start them.
* `exists_reads_calmly`: what has no comments and no broken strings is read
  calmly, and the other way round by `comments_eq_nil_of_reads`.
-/

namespace StylesheetPruning

section Comments

theorem commentSpans_go_ne_nil
    {cells : List Cell} {offset : Nat} {spans : List Span}
    (h : spans ≠ []) : commentSpans.go cells offset spans ≠ [] := by
  induction cells generalizing offset spans with
  | nil =>
      simpa [commentSpans.go] using h
  | cons cell rest ih =>
      obtain ⟨span, earlier, rfl⟩ := List.exists_cons_of_ne_nil h
      cases hrole : cell.role <;> simp [commentSpans.go, hrole, ih]

/-- Without a character that starts a comment there are no comments. -/
theorem commentSpans_eq_nil_iff (cells : List Cell) :
    commentSpans cells = [] ↔ ∀ cell ∈ cells, cell.role ≠ .commentStart := by
  have hgo : ∀ offset,
      commentSpans.go cells offset [] = [] ↔
        ∀ cell ∈ cells, cell.role ≠ .commentStart := by
    induction cells with
    | nil =>
        simp [commentSpans.go]
    | cons cell rest ih =>
        intro offset
        rw [List.forall_mem_cons, ← ih (offset + cell.char.utf8Size)]
        cases hrole : cell.role with
        | commentStart =>
            simp [commentSpans.go, hrole, commentSpans_go_ne_nil]
        | code =>
            simp [commentSpans.go, hrole]
        | quoted =>
            simp [commentSpans.go, hrole]
        | commentBody =>
            simp [commentSpans.go, hrole]
  exact hgo 0

/-- Whether the machine stands in a comment. -/
def Lexing.inComment : Lexing → Bool
  | commentOpen | comment | commentClose => true
  | plain | escaped | quoted _ | quotedEscaped _ => false

/-- Outside of comments, a character begins a comment or is in none. -/
theorem step_of_not_inComment
    {state : Lexing} (h : state.inComment = false) {c : Char}
    {next : Option Char} (hrole : (state.step c next).2 ≠ .commentStart) :
    ((state.step c next).2 = .code ∨ (state.step c next).2 = .quoted) ∧
      (state.step c next).1.inComment = false := by
  cases state with
  | plain =>
      simp only [Lexing.step] at hrole ⊢
      split at hrole
      · exact absurd rfl hrole
      · next hcomment =>
          rw [if_neg hcomment]
          split
          · exact ⟨.inl rfl, rfl⟩
          · split <;> exact ⟨.inl rfl, rfl⟩
  | escaped =>
      exact ⟨.inl rfl, rfl⟩
  | commentOpen =>
      cases h
  | comment =>
      cases h
  | commentClose =>
      cases h
  | quoted quote =>
      simp only [Lexing.step]
      split
      · exact ⟨.inl rfl, rfl⟩
      · split <;> exact ⟨.inr rfl, rfl⟩
  | quotedEscaped quote =>
      exact ⟨.inr rfl, rfl⟩

/-- A comment starts with a slash. -/
theorem eq_slash_of_commentStart
    {state : Lexing} {c : Char} {next : Option Char}
    (h : (state.step c next).2 = .commentStart) : c = '/' := by
  cases state with
  | plain =>
      simp only [Lexing.step] at h
      split at h
      · next hcomment =>
          exact hcomment.1
      · split at h
        · cases h
        · split at h <;> cases h
  | escaped =>
      cases h
  | commentOpen =>
      cases h
  | comment =>
      simp only [Lexing.step] at h
      split at h <;> cases h
  | commentClose =>
      cases h
  | quoted quote =>
      simp only [Lexing.step] at h
      split at h
      · cases h
      · split at h <;> cases h
  | quotedEscaped quote =>
      cases h

theorem Reads.eq_slash_of_commentStart
    {ok : Lexing → Cell → Prop} {state state' : Lexing} {cells : List Cell}
    {next : Option Char} (h : Reads ok state cells next state') :
    ∀ cell ∈ cells, cell.role = .commentStart → cell.char = '/' := by
  induction cells generalizing state with
  | nil =>
      simp
  | cons cell rest ih =>
      obtain ⟨-, hrole, hrest⟩ := h
      refine List.forall_mem_cons.mpr ⟨?_, ih hrest⟩
      intro hstart
      exact StylesheetPruning.eq_slash_of_commentStart (hrole.trans hstart)

/-- A reading that meets no start of a comment meets no comment. -/
theorem Reads.uncommented_of_no_start
    {ok : Lexing → Cell → Prop} {state state' : Lexing} {cells : List Cell}
    {next : Option Char} (h : Reads ok state cells next state')
    (hstate : state.inComment = false)
    (hstart : ∀ cell ∈ cells, cell.role ≠ .commentStart) :
    Uncommented cells := by
  induction cells generalizing state with
  | nil =>
      simp [Uncommented]
  | cons cell rest ih =>
      obtain ⟨-, hrole, hrest⟩ := h
      obtain ⟨hcell, hrestStart⟩ := List.forall_mem_cons.mp hstart
      rw [← hrole] at hcell
      obtain ⟨hstep, hstate'⟩ := step_of_not_inComment hstate hcell
      rw [hrole] at hstep
      exact List.forall_mem_cons.mpr ⟨hstep, ih hrest hstate' hrestStart⟩

/-- Without comments, a text is its own uncommented text. -/
theorem uncommented_eq_self {css : Text}
    (h : (Masking.ofText css).comments = []) :
    (Masking.ofText css).uncommented = css := by
  have hstart := (commentSpans_eq_nil_iff (annotate .plain css).2).mp h
  have huncommented :=
    (reads_annotate .plain css).uncommented_of_no_start rfl hstart
  exact (flatMap_uncommented_eq_chars huncommented).trans
    (chars_annotate .plain css)

/-- What is read calmly has no comments. -/
theorem comments_eq_nil_of_reads
    {cells : List Cell} {state : Lexing}
    (h : Reads calmly .plain cells none state) :
    (Masking.ofText (chars cells)).comments = [] := by
  simp only [Masking.ofText, annotate_of_reads h]
  rw [commentSpans_eq_nil_iff]
  intro cell hcell
  rcases h.uncommented cell hcell with hrole | hrole <;> simp [hrole]

/-- Without comments and without broken strings, a text is read calmly. -/
theorem exists_reads_calmly {css : Text}
    (hcomments : (Masking.ofText css).comments = [])
    (hstrings : UnbrokenStrings css) :
    ∃ cells state, chars cells = css ∧
      Reads calmly .plain cells none state := by
  obtain ⟨state, hread⟩ := exists_reads_settledCells hstrings
  refine ⟨settledCells css, state, ?_, hread⟩
  rw [chars_settledCells, uncommented_eq_self hcomments]

end Comments

end StylesheetPruning
