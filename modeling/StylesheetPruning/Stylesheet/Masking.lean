import StylesheetPruning.Text.Basic

/-!
# Masking of comments and strings

Braces, commas and colons inside comments and strings carry no structure. A
masking overwrites them, byte for byte, so that every offset found in the
masked text is valid in the stylesheet.

**Lexing.** A machine reads the stylesheet one character at a time and may
look at the next one. It gives each character a role. A comment runs from an
opening mark to its closing mark. A string runs from a quote to the same quote
or to a line break; a backslash in a string takes the next character with it,
except a line break. Outside of both, a backslash takes the next character
with it too.

**Texts.** In the uncommented text comments are spaces. In the masked text, the
inside of every string is filler as well.

**Results.** Both texts are as long as the stylesheet.
-/

namespace StylesheetPruning

/-- What a character is part of. -/
inductive Role where
  /-- Structure, quotes, and line breaks that end a string. -/
  | code
  /-- The inside of a string. -/
  | quoted
  /-- The first character of a comment. -/
  | commentStart
  /-- A later character of a comment. -/
  | commentBody
deriving Repr, DecidableEq

/-- Where the lexing machine stands between two characters. -/
inductive Lexing where
  /-- Outside comments and strings. -/
  | plain
  /-- Behind a backslash outside comments and strings. -/
  | escaped
  /-- Between the two characters that open a comment. -/
  | commentOpen
  /-- In a comment. -/
  | comment
  /-- Between the two characters that close a comment. -/
  | commentClose
  /-- In a string that began with this quote. -/
  | quoted (quote : Char)
  /-- Behind a backslash in a string. -/
  | quotedEscaped (quote : Char)
deriving Repr, DecidableEq

namespace Lexing

/-- Whether a character opens a string. -/
def isQuote (c : Char) : Bool :=
  c = '"' || c = '\''

/-- Read one character, knowing the next: the new state, and its role. -/
def step : Lexing → Char → Option Char → Lexing × Role
  | plain, c, next =>
      if c = '/' ∧ next = some '*' then (commentOpen, .commentStart)
      else if isQuote c then (quoted c, .code)
      else if c = '\\' ∧ next.isSome then (escaped, .code)
      else (plain, .code)
  | escaped, _, _ => (plain, .code)
  | commentOpen, _, _ => (comment, .commentBody)
  | comment, c, next =>
      if c = '*' ∧ next = some '/' then (commentClose, .commentBody)
      else (comment, .commentBody)
  | commentClose, _, _ => (plain, .commentBody)
  | quoted quote, c, next =>
      if c = quote ∨ isLineBreak c then (plain, .code)
      else if c = '\\' ∧ next.any (fun d => !isLineBreak d) then
        (quotedEscaped quote, .quoted)
      else (quoted quote, .quoted)
  | quotedEscaped quote, _, _ => (quoted quote, .quoted)

/-- Whether a text that ends here ends inside a comment or a string. -/
def isOpen : Lexing → Bool
  | plain | escaped | commentClose => false
  | commentOpen | comment | quoted _ | quotedEscaped _ => true

end Lexing

/-- A character of a stylesheet with its role. -/
structure Cell where
  char : Char
  role : Role
deriving Repr, DecidableEq

namespace Cell

/-- The character, with comments and the inside of strings overwritten. -/
def masked (cell : Cell) : Text :=
  match cell.role with
  | .code => [cell.char]
  | .quoted => List.replicate cell.char.utf8Size 'X'
  | .commentStart | .commentBody => spaces cell.char.utf8Size

/-- The character, with comments overwritten. -/
def uncommented (cell : Cell) : Text :=
  match cell.role with
  | .code | .quoted => [cell.char]
  | .commentStart | .commentBody => spaces cell.char.utf8Size

@[simp] theorem byteLength_masked (cell : Cell) :
    byteLength cell.masked = cell.char.utf8Size := by
  cases h : cell.role <;>
    simp [masked, h, show ('X' : Char).utf8Size = 1 from rfl]

@[simp] theorem byteLength_uncommented (cell : Cell) :
    byteLength cell.uncommented = cell.char.utf8Size := by
  cases h : cell.role <;> simp [uncommented, h]

end Cell

section Annotation

/-- Give every character of the rest its role. -/
def annotate.go : Lexing → Text → List Cell → Lexing × List Cell
  | state, [], cells => (state, cells.reverse)
  | state, c :: rest, cells =>
      let (state', role) := state.step c rest.head?
      go state' rest (⟨c, role⟩ :: cells)

/-- Every character with its role, and the state at the end. -/
def annotate (state : Lexing) (text : Text) : Lexing × List Cell :=
  annotate.go state text []

theorem annotate.go_eq (state : Lexing) (text : Text) (cells : List Cell) :
    annotate.go state text cells =
      ((annotate state text).1, cells.reverse ++ (annotate state text).2) := by
  induction text generalizing state cells with
  | nil => simp [annotate, annotate.go]
  | cons c rest ih =>
      simp only [annotate, annotate.go]
      rw [ih, ih _ [⟨c, _⟩]]
      simp

@[simp] theorem annotate_nil (state : Lexing) :
    annotate state [] = (state, []) := rfl

/-- The first character decides how the rest is read. -/
theorem annotate_cons (state : Lexing) (c : Char) (rest : Text) :
    annotate state (c :: rest) =
      let (state', role) := state.step c rest.head?
      ((annotate state' rest).1, ⟨c, role⟩ :: (annotate state' rest).2) := by
  rw [annotate]
  simp only [annotate.go]
  rw [annotate.go_eq]
  rfl

/-- Roles are given to the characters of the text, in order. -/
theorem map_char_annotate (state : Lexing) (text : Text) :
    (annotate state text).2.map Cell.char = text := by
  induction text generalizing state with
  | nil => rfl
  | cons c rest ih => simp [annotate_cons, ih]

/-- Spans of the comments among cells, the first of which is at an offset. -/
def commentSpans.go : List Cell → Nat → List Span → List Span
  | [], _, spans => spans.reverse
  | cell :: rest, offset, spans =>
      let next := offset + cell.char.utf8Size
      match cell.role, spans with
      | .commentStart, _ => go rest next (⟨offset, next⟩ :: spans)
      | .commentBody, span :: earlier =>
          go rest next (⟨span.start, next⟩ :: earlier)
      | _, _ => go rest next spans

/-- Spans of the comments in a stylesheet, in source order. -/
def commentSpans (cells : List Cell) : List Span :=
  commentSpans.go cells 0 []

end Annotation

/-- A stylesheet with its comments and strings overwritten. -/
structure Masking where
  /-- Comments as spaces, the inside of strings as filler. -/
  masked : Text
  /-- Comments as spaces. -/
  uncommented : Text
  /-- Spans of the comments, in source order. -/
  comments : List Span
  /-- Whether the stylesheet ends inside a comment or a string. -/
  endsOpen : Bool
deriving Repr, DecidableEq

namespace Masking

/-- The masking of a stylesheet. -/
def ofText (css : Text) : Masking :=
  let (state, cells) := annotate .plain css
  { masked := cells.flatMap Cell.masked
    uncommented := cells.flatMap Cell.uncommented
    comments := commentSpans cells
    endsOpen := state.isOpen }

theorem byteLength_flatMap_masked (cells : List Cell) :
    byteLength (cells.flatMap Cell.masked) =
      byteLength (cells.map Cell.char) := by
  induction cells with
  | nil => rfl
  | cons cell rest ih => simp [ih]

theorem byteLength_flatMap_uncommented (cells : List Cell) :
    byteLength (cells.flatMap Cell.uncommented) =
      byteLength (cells.map Cell.char) := by
  induction cells with
  | nil => rfl
  | cons cell rest ih => simp [ih]

/-- Masking keeps the length. -/
@[simp] theorem byteLength_masked (css : Text) :
    byteLength (ofText css).masked = byteLength css := by
  simp [ofText, byteLength_flatMap_masked, map_char_annotate]

/-- Stripping comments keeps the length. -/
@[simp] theorem byteLength_uncommented (css : Text) :
    byteLength (ofText css).uncommented = byteLength css := by
  simp [ofText, byteLength_flatMap_uncommented, map_char_annotate]

end Masking

end StylesheetPruning
