import StylesheetPruning.Proofs.Stylesheet.Lexing

/-!
# Calm readings

A reading is calm when it meets no comment and no string that is ended by a
line break. A stylesheet without such strings is read calmly once its comments
are blanked.

**Results.**
* `reads_settled`: blanking comments changes nothing else in a reading.
* `reads_settledCells`: an uncommented stylesheet is read as its cells say.
* `exists_reads_settledCells`: it is read calmly when its strings are unbroken.
-/

namespace StylesheetPruning

section Strings

/-- Whether the machine stands in a string, not behind a backslash. -/
def Lexing.isQuoted : Lexing → Bool
  | quoted _ => true
  | plain | escaped | commentOpen | comment | commentClose
  | quotedEscaped _ => false

/-- Whether a line break ends a string in the rest of a text. -/
def breaksString : Lexing → Text → Bool
  | _, [] => false
  | state, c :: rest =>
      (state.isQuoted && isLineBreak c) ||
        breaksString (state.step c rest.head?).1 rest

/-- No string of a stylesheet is ended by a line break. -/
def UnbrokenStrings (css : Text) : Prop :=
  breaksString .plain css = false

instance (css : Text) : Decidable (UnbrokenStrings css) :=
  inferInstanceAs (Decidable (breaksString .plain css = false))

/-- Admit cells outside comments, and no line break that ends a string. -/
def calmly (state : Lexing) (cell : Cell) : Prop :=
  (cell.role = .code ∨ cell.role = .quoted) ∧
    (state.isQuoted && isLineBreak cell.char) = false

end Strings

section Roles

/-- Cells outside comments. -/
def Uncommented (cells : List Cell) : Prop :=
  ∀ cell ∈ cells, cell.role = .code ∨ cell.role = .quoted

theorem Reads.uncommented
    {state state' : Lexing} {cells : List Cell} {next : Option Char}
    (h : Reads calmly state cells next state') : Uncommented cells := by
  induction cells generalizing state with
  | nil =>
      simp [Uncommented]
  | cons cell rest ih =>
      obtain ⟨⟨hrole, -⟩, -, hrest⟩ := h
      intro d hd
      rcases List.mem_cons.mp hd with rfl | hd
      · exact hrole
      · exact ih hrest d hd

/-- Outside comments, a text without comments is the text itself. -/
theorem flatMap_uncommented_eq_chars
    {cells : List Cell} (h : Uncommented cells) :
    cells.flatMap Cell.uncommented = chars cells := by
  induction cells with
  | nil =>
      rfl
  | cons cell rest ih =>
      have hrest : Uncommented rest :=
        fun d hd => h d (List.mem_cons_of_mem cell hd)
      have hcell : cell.uncommented = [cell.char] := by
        rcases h cell (by simp) with hrole | hrole <;>
          simp [Cell.uncommented, hrole]
      rw [List.flatMap_cons, ih hrest, hcell]
      rfl

end Roles

section Settling

/-- A cell after its comment was blanked. -/
def Cell.settled (cell : Cell) : List Cell :=
  match cell.role with
  | .code | .quoted => [cell]
  | .commentStart | .commentBody => cell.uncommented.map codeCell

/-- Where the machine stands once comments are blanked. -/
def Lexing.settled : Lexing → Lexing
  | commentOpen | comment | commentClose => plain
  | plain => plain
  | escaped => escaped
  | quoted quote => quoted quote
  | quotedEscaped quote => quotedEscaped quote

theorem chars_map_codeCell (text : Text) : chars (text.map codeCell) = text := by
  induction text with
  | nil =>
      rfl
  | cons c rest ih =>
      rw [List.map_cons, chars_cons, ih]
      rfl

theorem Cell.chars_settled (cell : Cell) : chars cell.settled = cell.uncommented := by
  cases h : cell.role <;>
    simp [settled, uncommented, h, chars_map_codeCell]

theorem chars_flatMap_settled (cells : List Cell) :
    chars (cells.flatMap Cell.settled) = cells.flatMap Cell.uncommented := by
  induction cells with
  | nil =>
      rfl
  | cons cell rest ih =>
      rw [List.flatMap_cons, chars_append, ih, Cell.chars_settled]
      rfl

theorem flatMap_masked_map_codeCell (text : Text) :
    (text.map codeCell).flatMap Cell.masked = text := by
  induction text with
  | nil =>
      rfl
  | cons c rest ih =>
      rw [List.map_cons, List.flatMap_cons, ih]
      rfl

theorem Cell.flatMap_masked_settled (cell : Cell) :
    cell.settled.flatMap Cell.masked = cell.masked := by
  cases h : cell.role with
  | code =>
      simp [settled, h]
  | quoted =>
      simp [settled, h]
  | commentStart =>
      simp only [settled, h, flatMap_masked_map_codeCell]
      simp [uncommented, masked, h]
  | commentBody =>
      simp only [settled, h, flatMap_masked_map_codeCell]
      simp [uncommented, masked, h]

theorem flatMap_masked_settled (cells : List Cell) :
    (cells.flatMap Cell.settled).flatMap Cell.masked =
      cells.flatMap Cell.masked := by
  induction cells with
  | nil =>
      rfl
  | cons cell rest ih =>
      rw [List.flatMap_cons, List.flatMap_append, ih,
        Cell.flatMap_masked_settled]
      rfl

variable {ok : Lexing → Cell → Prop}

/-- Spaces outside of strings leave the machine where it is. -/
theorem reads_spaces
    (hspace : ok .plain (codeCell ' ')) (n : Nat) (next : Option Char) :
    Reads ok .plain ((spaces n).map codeCell) next .plain := by
  induction n with
  | zero =>
      exact rfl
  | succ n ih =>
      exact ⟨hspace, rfl, ih⟩

/-- A comment begins with another character than the space it becomes. -/
theorem nextChar_flatMap_settled (cells : List Cell) :
    nextChar (cells.flatMap Cell.settled) none = nextChar cells none ∨
      nextChar (cells.flatMap Cell.settled) none = some ' ' ∧
        (nextChar cells none).isSome = true := by
  cases cells with
  | nil =>
      exact .inl rfl
  | cons cell rest =>
      have hpos := cell.char.utf8Size_pos
      obtain ⟨n, hn⟩ : ∃ n, cell.char.utf8Size = n + 1 :=
        ⟨cell.char.utf8Size - 1, by omega⟩
      cases h : cell.role with
      | code =>
          left
          simp [Cell.settled, h]
      | quoted =>
          left
          simp [Cell.settled, h]
      | commentStart =>
          right
          simp [Cell.settled, Cell.uncommented, h, hn, spaces,
            List.replicate_succ, codeCell]
      | commentBody =>
          right
          simp [Cell.settled, Cell.uncommented, h, hn, spaces,
            List.replicate_succ, codeCell]

/-- Whether the machine stands in a string. -/
def Lexing.inString : Lexing → Bool
  | quoted _ | quotedEscaped _ => true
  | plain | escaped | commentOpen | comment | commentClose => false

/-- In a string no comment begins. -/
theorem nextChar_flatMap_settled_of_inString
    {state state' : Lexing} {cells : List Cell}
    (hstate : state.inString = true)
    (h : Reads ok state cells none state') :
    nextChar (cells.flatMap Cell.settled) none = nextChar cells none := by
  cases cells with
  | nil =>
      rfl
  | cons cell rest =>
      obtain ⟨-, hrole, -⟩ := h
      have hcell : cell.role = .code ∨ cell.role = .quoted := by
        rw [← hrole]
        cases state with
        | quoted quote =>
            simp only [Lexing.step]
            split
            · exact .inl rfl
            · split
              · exact .inr rfl
              · exact .inr rfl
        | quotedEscaped quote =>
            exact .inr rfl
        | plain => cases hstate
        | escaped => cases hstate
        | commentOpen => cases hstate
        | comment => cases hstate
        | commentClose => cases hstate
      rcases hcell with hcell | hcell <;>
        simp [Cell.settled, hcell]

/-- A cell outside comments stays where it is. -/
theorem reads_settled_code
    {state state' : Lexing} {c : Char} {role : Role} {next : Option Char}
    (hrole : role = .code ∨ role = .quoted) (hok : ok state ⟨c, role⟩)
    (hstep : state.step c next = (state', role)) :
    Reads ok state (Cell.settled ⟨c, role⟩) next state' := by
  have hsettled : Cell.settled ⟨c, role⟩ = [⟨c, role⟩] := by
    rcases hrole with rfl | rfl <;> rfl
  have hread : (state.step c next).2 = role ∧
      (state.step c next).1 = state' := by
    rw [hstep]
    exact ⟨rfl, rfl⟩
  rw [hsettled]
  exact ⟨hok, hread⟩

/-- Where no comment begins, code goes on, or a string or an escape begins. -/
theorem step_plain_cases {c : Char} {next : Option Char}
    (h : ¬ (c = '/' ∧ next = some '*')) :
    Lexing.plain.step c next = (.quoted c, .code) ∨
      Lexing.plain.step c next = (.escaped, .code) ∨
      Lexing.plain.step c next = (.plain, .code) := by
  simp only [Lexing.step, if_neg h]
  split
  · exact .inl rfl
  · split
    · exact .inr (.inl rfl)
    · exact .inr (.inr rfl)

/-- Where no comment begins, it only matters whether a character follows. -/
theorem step_plain_congr {c d : Char} {next next' : Option Char} (hd : d ≠ '*')
    (hnext : next' = next ∨ next' = some d ∧ next.isSome = true)
    (h : ¬ (c = '/' ∧ next = some '*')) :
    Lexing.plain.step c next' = Lexing.plain.step c next := by
  rcases hnext with rfl | ⟨rfl, hsome⟩
  · rfl
  · have hcomment : ¬ (c = '/' ∧ some d = some '*') :=
      fun hc => hd (Option.some.inj hc.2)
    simp only [Lexing.step, if_neg h, if_neg hcomment, hsome,
      Option.isSome_some]

/-- Admit what is in a comment, and cells outside of one as they are. -/
def besideComments (ok : Lexing → Cell → Prop) (state : Lexing) (cell : Cell) :
    Prop :=
  cell.role = .code ∨ cell.role = .quoted → ok state cell

/-- One character is read as before when comments around it are blanked. -/
theorem reads_settled_cell
    (hspace : ok .plain (codeCell ' '))
    {state : Lexing} {c : Char} {next next' : Option Char}
    (hok : besideComments ok state ⟨c, (state.step c next).2⟩)
    (hnext : next' = next ∨ next' = some ' ' ∧ next.isSome = true)
    (hstring : (state.step c next).1.inString = true → next' = next) :
    Reads ok state.settled (Cell.settled ⟨c, (state.step c next).2⟩) next'
      (state.step c next).1.settled := by
  cases state with
  | plain =>
      by_cases hcomment : c = '/' ∧ next = some '*'
      · have hstep : Lexing.plain.step c next = (.commentOpen, .commentStart) := by
          simp only [Lexing.step, if_pos hcomment]
        rw [hstep]
        exact reads_spaces hspace _ _
      · have hstep := step_plain_congr (by decide) hnext hcomment
        have hplain : (Lexing.plain.step c next).1.settled =
              (Lexing.plain.step c next).1 ∧
            (Lexing.plain.step c next).2 = .code := by
          rcases step_plain_cases hcomment with h | h | h <;>
            exact h ▸ ⟨rfl, rfl⟩
        rw [hplain.1]
        exact reads_settled_code (.inl hplain.2) (hok (.inl hplain.2)) hstep
  | escaped =>
      exact reads_settled_code (.inl rfl) (hok (.inl rfl)) rfl
  | commentOpen =>
      exact reads_spaces hspace _ _
  | comment =>
      simp only [Lexing.step]
      split
      · exact reads_spaces hspace _ _
      · exact reads_spaces hspace _ _
  | commentClose =>
      exact reads_spaces hspace _ _
  | quoted quote =>
      by_cases hend : c = quote ∨ isLineBreak c = true
      · have hstep : ∀ after,
            (Lexing.quoted quote).step c after = (.plain, .code) := by
          intro after
          simp only [Lexing.step, if_pos hend]
        rw [hstep] at hok ⊢
        exact reads_settled_code (.inl rfl) (hok (.inl rfl)) (hstep next')
      · have hinside : ((Lexing.quoted quote).step c next).1.inString = true ∧
            ((Lexing.quoted quote).step c next).1.settled =
              ((Lexing.quoted quote).step c next).1 ∧
            ((Lexing.quoted quote).step c next).2 = .quoted := by
          simp only [Lexing.step, if_neg hend]
          split <;> exact ⟨rfl, rfl, rfl⟩
        rw [hstring hinside.1, hinside.2.1]
        exact reads_settled_code (.inr hinside.2.2) (hok (.inr hinside.2.2)) rfl
  | quotedEscaped quote =>
      exact reads_settled_code (.inr rfl) (hok (.inr rfl)) rfl

/-- Blanking comments changes nothing else in a reading. -/
theorem reads_settled
    (hspace : ok .plain (codeCell ' '))
    {state state' : Lexing} {cells : List Cell}
    (h : Reads (besideComments ok) state cells none state') :
    Reads ok state.settled (cells.flatMap Cell.settled) none
      state'.settled := by
  induction cells generalizing state with
  | nil =>
      cases h
      exact rfl
  | cons cell rest ih =>
      obtain ⟨c, role⟩ := cell
      obtain ⟨hok, hrole, hrest⟩ := h
      have hstep : (state.step c (nextChar rest none)).2 = role := hrole
      have hcell :=
        reads_settled_cell hspace (hstep.symm ▸ hok)
          (nextChar_flatMap_settled rest)
          (fun hstring => nextChar_flatMap_settled_of_inString hstring hrest)
      rw [hstep] at hcell
      rw [List.flatMap_cons]
      exact hcell.append (ih hrest)

/-- Where no line break ends a string, a reading is calm beside comments. -/
theorem reads_calmly
    {state state' : Lexing} {cells : List Cell}
    (h : Reads anyhow state cells none state')
    (hbreaks : breaksString state (chars cells) = false) :
    Reads (besideComments calmly) state cells none state' := by
  induction cells generalizing state with
  | nil =>
      exact h
  | cons cell rest ih =>
      obtain ⟨-, hrole, hrest⟩ := h
      simp only [chars_cons, breaksString, Bool.or_eq_false_iff,
        ← nextChar_none] at hbreaks
      exact ⟨fun hcode => ⟨hcode, hbreaks.1⟩, hrole, ih hrest hbreaks.2⟩

/-- The cells of a stylesheet whose comments were blanked. -/
def settledCells (css : Text) : List Cell :=
  (annotate .plain css).2.flatMap Cell.settled

theorem chars_settledCells (css : Text) :
    chars (settledCells css) = (Masking.ofText css).uncommented :=
  chars_flatMap_settled _

theorem flatMap_masked_settledCells (css : Text) :
    (settledCells css).flatMap Cell.masked = (Masking.ofText css).masked :=
  flatMap_masked_settled _

/-- An uncommented stylesheet is read as its cells say. -/
theorem reads_settledCells (css : Text) :
    Reads anyhow .plain (settledCells css) none
      (annotate .plain css).1.settled := by
  have hread : Reads (besideComments anyhow) .plain (annotate .plain css).2
      none (annotate .plain css).1 := by
    refine (reads_annotate .plain css).mono ?_
    intro state cell _ _
    exact trivial
  exact reads_settled trivial hread

theorem uncommented_settledCells (css : Text) : Uncommented (settledCells css) := by
  intro cell hcell
  obtain ⟨original, -, hcell⟩ := List.mem_flatMap.mp hcell
  cases hrole : original.role with
  | code =>
      simp only [Cell.settled, hrole, List.mem_singleton] at hcell
      exact .inl (hcell ▸ hrole)
  | quoted =>
      simp only [Cell.settled, hrole, List.mem_singleton] at hcell
      exact .inr (hcell ▸ hrole)
  | commentStart =>
      simp only [Cell.settled, hrole] at hcell
      obtain ⟨c, -, rfl⟩ := List.mem_map.mp hcell
      exact .inl rfl
  | commentBody =>
      simp only [Cell.settled, hrole] at hcell
      obtain ⟨c, -, rfl⟩ := List.mem_map.mp hcell
      exact .inl rfl

/-- An uncommented stylesheet whose strings are unbroken is read calmly. -/
theorem exists_reads_settledCells {css : Text} (h : UnbrokenStrings css) :
    ∃ state, Reads calmly .plain (settledCells css) none state := by
  have hread := reads_calmly (reads_annotate .plain css)
    (by rw [chars_annotate]; exact h)
  exact ⟨_, reads_settled ⟨.inl rfl, rfl⟩ hread⟩

/-- What is read is the masked text of its characters. -/
theorem masked_of_reads
    {ok : Lexing → Cell → Prop} {cells : List Cell} {state : Lexing}
    (h : Reads ok .plain cells none state) :
    (Masking.ofText (chars cells)).masked = cells.flatMap Cell.masked := by
  simp only [Masking.ofText, annotate_of_reads h]

/-- Without comments, a text is its own uncommented text. -/
theorem uncommented_of_reads
    {cells : List Cell} {state : Lexing}
    (h : Reads calmly .plain cells none state) :
    (Masking.ofText (chars cells)).uncommented = chars cells := by
  simp only [Masking.ofText, annotate_of_reads h]
  exact flatMap_uncommented_eq_chars h.uncommented

end Settling

end StylesheetPruning
