import StylesheetPruning.Stylesheet.Masking

/-!
# Lexing in parts

A text that was read is a list of cells. `Reads` says of any part of such a
list that the machine makes these cells of these characters, as long as the
character behind the part is known: the machine looks one character ahead.

**Fences.** A brace or a semicolon that carries structure is a fence.

**Hollow cells.** Cells are hollow when all that carries structure among them
is whitespace. What is read outside of strings and is hollow has no string.

**Results.**
* `reads_append`: a reading of two parts is a reading of each.
* `annotate_of_reads`: a reading up to the end is what annotating gives.
* `Reads.not_quoted_of_hollow`: hollow cells hold no string.
-/

namespace StylesheetPruning

/-- The characters of cells. -/
def chars (cells : List Cell) : Text :=
  cells.map Cell.char

@[simp] theorem chars_nil : chars [] = [] := rfl

@[simp] theorem chars_cons (cell : Cell) (rest : List Cell) :
    chars (cell :: rest) = cell.char :: chars rest := rfl

@[simp] theorem chars_append (cells cells' : List Cell) :
    chars (cells ++ cells') = chars cells ++ chars cells' :=
  List.map_append

section Reading

/-- The first character of cells, or the one behind them. -/
def nextChar (cells : List Cell) (next : Option Char) : Option Char :=
  match cells with
  | [] => next
  | cell :: _ => some cell.char

@[simp] theorem nextChar_nil (next : Option Char) :
    nextChar [] next = next := rfl

@[simp] theorem nextChar_cons
    (cell : Cell) (rest : List Cell) (next : Option Char) :
    nextChar (cell :: rest) next = some cell.char := rfl

theorem nextChar_append
    (cells cells' : List Cell) (next : Option Char) :
    nextChar (cells ++ cells') next =
      nextChar cells (nextChar cells' next) := by
  cases cells <;> rfl

theorem nextChar_none (cells : List Cell) :
    nextChar cells none = (chars cells).head? := by
  cases cells <;> rfl

/--
Whether the machine gives characters the roles of their cells on its way from
one state to another, all cells being admitted where it meets them.
-/
def Reads (ok : Lexing → Cell → Prop) :
    Lexing → List Cell → Option Char → Lexing → Prop
  | state, [], _, state' => state = state'
  | state, cell :: rest, next, state' =>
      ok state cell ∧
        (state.step cell.char (nextChar rest next)).2 = cell.role ∧
        Reads ok (state.step cell.char (nextChar rest next)).1 rest next state'

variable {ok : Lexing → Cell → Prop}

/-- A reading of two parts is a reading of each. -/
theorem reads_append
    {state state' : Lexing} {cells cells' : List Cell} {next : Option Char} :
    Reads ok state (cells ++ cells') next state' ↔
      ∃ between,
        Reads ok state cells (nextChar cells' next) between ∧
        Reads ok between cells' next state' := by
  induction cells generalizing state with
  | nil =>
      simp [Reads]
  | cons cell rest ih =>
      simp only [List.cons_append, Reads, nextChar_append, ih]
      constructor
      · rintro ⟨hok, hrole, between, hrest, hcells'⟩
        exact ⟨between, ⟨hok, hrole, hrest⟩, hcells'⟩
      · rintro ⟨between, ⟨hok, hrole, hrest⟩, hcells'⟩
        exact ⟨hok, hrole, between, hrest, hcells'⟩

theorem Reads.append
    {state between state' : Lexing} {cells cells' : List Cell}
    {next : Option Char}
    (h : Reads ok state cells (nextChar cells' next) between)
    (h' : Reads ok between cells' next state') :
    Reads ok state (cells ++ cells') next state' :=
  reads_append.mpr ⟨between, h, h'⟩

/-- What admits more reads more. -/
theorem Reads.mono
    {ok' : Lexing → Cell → Prop} (hok : ∀ state cell, ok state cell → ok' state cell)
    {state state' : Lexing} {cells : List Cell} {next : Option Char}
    (h : Reads ok state cells next state') : Reads ok' state cells next state' := by
  induction cells generalizing state with
  | nil =>
      exact h
  | cons cell rest ih =>
      exact ⟨hok state cell h.1, h.2.1, ih h.2.2⟩

/-- Admit every cell. -/
def anyhow (_ : Lexing) (_ : Cell) : Prop :=
  True

theorem reads_annotate (state : Lexing) (text : Text) :
    Reads anyhow state (annotate state text).2 none
      (annotate state text).1 := by
  induction text generalizing state with
  | nil =>
      exact rfl
  | cons c rest ih =>
      have hnext :
          nextChar (annotate (state.step c rest.head?).1 rest).2 none =
            rest.head? := by
        rw [nextChar_none]
        exact congrArg List.head? (map_char_annotate _ rest)
      rw [annotate_cons]
      simp only [Reads, hnext]
      exact ⟨trivial, trivial, ih _⟩

theorem chars_annotate (state : Lexing) (text : Text) :
    chars (annotate state text).2 = text :=
  map_char_annotate state text

/-- A reading up to the end is what annotating gives. -/
theorem annotate_of_reads
    {state state' : Lexing} {cells : List Cell}
    (h : Reads ok state cells none state') :
    annotate state (chars cells) = (state', cells) := by
  induction cells generalizing state with
  | nil =>
      cases h
      rfl
  | cons cell rest ih =>
      obtain ⟨-, hrole, hrest⟩ := h
      rw [nextChar_none] at hrole hrest
      rw [chars_cons, annotate_cons]
      simp only [ih hrest, hrole]

end Reading

section Fences

/-- Braces and semicolons. -/
def isFence (c : Char) : Bool :=
  c = '{' || c = '}' || c = ';'

/-- A character that carries structure. -/
def codeCell (c : Char) : Cell :=
  ⟨c, .code⟩

/-- Whether a cell is a brace or a semicolon that carries structure. -/
def Cell.isFence (cell : Cell) : Bool :=
  cell.role = .code && StylesheetPruning.isFence cell.char

theorem isFence_cases {c : Char} (h : isFence c = true) :
    c = '{' ∨ c = '}' ∨ c = ';' := by
  simpa only [isFence, Bool.or_eq_true, decide_eq_true_eq, or_assoc] using h

theorem Cell.isFence_cases {cell : Cell} (h : cell.isFence = true) :
    cell = codeCell '{' ∨ cell = codeCell '}' ∨ cell = codeCell ';' := by
  obtain ⟨c, role⟩ := cell
  simp only [Cell.isFence, Bool.and_eq_true, decide_eq_true_eq] at h
  obtain ⟨rfl, hc⟩ := h
  rcases StylesheetPruning.isFence_cases hc with rfl | rfl | rfl
  · exact .inl rfl
  · exact .inr (.inl rfl)
  · exact .inr (.inr rfl)

end Fences

section Hollow

/--
Whether all that carries structure among cells is whitespace. A string has
quotes, and they carry structure.
-/
def Hollow (cells : List Cell) : Prop :=
  ∀ cell ∈ cells, cell.role = .code → isSpace cell.char = true

/-- Outside of strings. -/
def Lexing.isPlain : Lexing → Bool
  | plain | commentOpen | comment | commentClose => true
  | escaped | quoted _ | quotedEscaped _ => false

theorem step_of_isPlain
    {state : Lexing} {c : Char} {next : Option Char}
    (hstate : state.isPlain = true)
    (hc : (state.step c next).2 = .code → isSpace c = true) :
    (state.step c next).2 ≠ .quoted ∧
      (state.step c next).1.isPlain = true := by
  cases state with
  | plain =>
      simp only [Lexing.step] at hc ⊢
      split
      · exact ⟨by simp, rfl⟩
      · next hcomment =>
          rw [if_neg hcomment] at hc
          split
          · next hquote =>
              rw [if_pos hquote] at hc
              have hspace := hc rfl
              simp only [Lexing.isQuote, Bool.or_eq_true,
                decide_eq_true_eq] at hquote
              rcases hquote with rfl | rfl <;> cases hspace
          · next hquote =>
              rw [if_neg hquote] at hc
              split
              · next hescape =>
                  rw [if_pos hescape] at hc
                  have hspace := hc rfl
                  rw [hescape.1] at hspace
                  cases hspace
              · exact ⟨by simp, rfl⟩
  | escaped =>
      cases hstate
  | commentOpen =>
      exact ⟨by simp [Lexing.step], rfl⟩
  | comment =>
      simp only [Lexing.step]
      split
      · exact ⟨by simp, rfl⟩
      · exact ⟨by simp, rfl⟩
  | commentClose =>
      exact ⟨by simp [Lexing.step], rfl⟩
  | quoted quote =>
      cases hstate
  | quotedEscaped quote =>
      cases hstate

/-- Hollow cells that are read outside of strings hold no string. -/
theorem Reads.not_quoted_of_hollow
    {ok : Lexing → Cell → Prop} {state state' : Lexing}
    {cells : List Cell} {next : Option Char}
    (h : Reads ok state cells next state')
    (hstate : state.isPlain = true) (hhollow : Hollow cells) :
    ∀ cell ∈ cells, cell.role ≠ .quoted := by
  induction cells generalizing state with
  | nil =>
      simp
  | cons cell rest ih =>
      obtain ⟨-, hrole, hrest⟩ := h
      have hcell :
          (state.step cell.char (nextChar rest next)).2 = .code →
            isSpace cell.char = true := by
        intro hcode
        exact hhollow cell (by simp) (hrole.symm.trans hcode)
      obtain ⟨hquoted, hplain⟩ := step_of_isPlain hstate hcell
      have hhollow' : Hollow rest :=
        fun d hd => hhollow d (List.mem_cons_of_mem cell hd)
      intro d hd
      rcases List.mem_cons.mp hd with rfl | hd
      · rw [← hrole]
        exact hquoted
      · exact ih hrest hplain hhollow' d hd

end Hollow

end StylesheetPruning
