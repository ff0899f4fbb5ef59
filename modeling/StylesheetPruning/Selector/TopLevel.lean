import StylesheetPruning.Selector.Escape
import StylesheetPruning.Text.Split

/-!
# What is exposed in a selector

Separators count only outside brackets and escapes. A walk over a text knows
how many brackets are open and how many characters of an escape are still to
be passed, and says of every character whether it is exposed.

**Brackets.** Round and square brackets nest alike. An opening bracket is
exposed when it is the outermost one; a closing bracket never is, and one
without an opening bracket changes nothing.

**Cutting.** `splitExposed` cuts at exposed separators and drops them,
`cutExposed` cuts in front of exposed marks and keeps them, and `breakExposed`
cuts once.
-/

namespace StylesheetPruning

/-- Where a walk stands between two characters. -/
structure Walk where
  /-- Number of open brackets. -/
  depth : Nat
  /-- Number of characters that still belong to an escape. -/
  skip : Nat
deriving Repr, DecidableEq

/-- A character, and whether a walk finds it exposed. -/
structure Glyph where
  char : Char
  exposed : Bool
deriving Repr, DecidableEq

namespace Walk

/-- Outside of brackets and escapes. -/
def start : Walk :=
  ⟨0, 0⟩

/-- Pass a character, given what follows it. -/
def step (walk : Walk) (c : Char) (rest : Text) : Walk × Bool :=
  match walk.skip with
  | skip + 1 => ({ walk with skip := skip }, false)
  | 0 =>
      if c = '\\' then
        ({ walk with skip := (escapeTail rest).length }, false)
      else if c = '(' || c = '[' then
        ({ walk with depth := walk.depth + 1 }, walk.depth = 0)
      else if c = ')' || c = ']' then
        ({ walk with depth := walk.depth - 1 }, false)
      else
        (walk, walk.depth = 0)

/-- Walk over a text. -/
def glyphs (walk : Walk) : Text → List Glyph
  | [] => []
  | c :: rest =>
      let (walk', exposed) := walk.step c rest
      ⟨c, exposed⟩ :: walk'.glyphs rest

/-- A walk passes every character once, in order. -/
theorem map_char_glyphs (walk : Walk) (text : Text) :
    (walk.glyphs text).map Glyph.char = text := by
  induction text generalizing walk with
  | nil => rfl
  | cons c rest ih => simp [glyphs, ih]

end Walk

section Cutting

/-- Whether a glyph is exposed and its character satisfies a condition. -/
def Glyph.shows (p : Char → Bool) (glyph : Glyph) : Bool :=
  glyph.exposed && p glyph.char

/-- The parts of a text between its exposed separators. -/
def splitExposed (isSeparator : Char → Bool) (text : Text) : List Text :=
  (splitWhere (Glyph.shows isSeparator) (Walk.start.glyphs text)).map
    (fun part => part.map Glyph.char)

/-- The parts of a text, each of which but the first begins at a mark. -/
def cutExposed (isMark : Char → Bool) (text : Text) : List Text :=
  (cutWhere (Glyph.shows isMark) (Walk.start.glyphs text)).map
    (fun part => part.map Glyph.char)

/-- A text up to its first exposed mark, and from there on. -/
def breakExposed (isMark : Char → Bool) (text : Text) : Text × Text :=
  let glyphs := Walk.start.glyphs text
  let before := glyphs.takeWhile (fun glyph => !glyph.shows isMark)
  (before.map Glyph.char, text.drop before.length)

/-- Cutting at marks loses nothing. -/
@[simp] theorem flatten_cutExposed (isMark : Char → Bool) (text : Text) :
    (cutExposed isMark text).flatten = text := by
  rw [cutExposed, ← List.map_flatten, flatten_cutWhere,
    Walk.map_char_glyphs]

/-- Breaking at a mark loses nothing. -/
theorem breakExposed_append (isMark : Char → Bool) (text : Text) :
    (breakExposed isMark text).1 ++ (breakExposed isMark text).2 = text := by
  have h := congrArg (List.map Glyph.char)
    (List.takeWhile_append_dropWhile
      (l := Walk.start.glyphs text) (p := fun glyph => !glyph.shows isMark))
  rw [List.map_append, Walk.map_char_glyphs] at h
  simp only [breakExposed]
  generalize (Walk.start.glyphs text).takeWhile
    (fun glyph => !glyph.shows isMark) = before at h ⊢
  generalize ((Walk.start.glyphs text).dropWhile
    (fun glyph => !glyph.shows isMark)).map Glyph.char = after at h
  subst h
  simp

end Cutting

section Pieces

/-- A part of a text, with the byte offset at which it stands. -/
structure Piece where
  start : Nat
  text : Text
deriving Repr, DecidableEq

namespace Piece

/-- The bytes that a piece takes up. -/
def span (piece : Piece) : Span :=
  ⟨piece.start, piece.start + byteLength piece.text⟩

/-- Place texts one after the other, with a gap between neighbours. -/
def place (gap : Nat) : Nat → List Text → List Piece
  | _, [] => []
  | start, text :: rest =>
      ⟨start, text⟩ :: place gap (start + byteLength text + gap) rest

/-- The piece without the whitespace at its two ends. -/
def trim (piece : Piece) : Piece :=
  let front := piece.text.takeWhile isSpace
  let rest := piece.text.drop front.length
  { start := piece.start + byteLength front
    text := (rest.reverse.dropWhile isSpace).reverse }

/-- The pieces between exposed separators, each of which is one byte. -/
def split (isSeparator : Char → Bool) (piece : Piece) : List Piece :=
  place 1 piece.start (splitExposed isSeparator piece.text)

/-- The pieces that exposed marks begin. -/
def cut (isMark : Char → Bool) (piece : Piece) : List Piece :=
  place 0 piece.start (cutExposed isMark piece.text)

end Piece

end Pieces

end StylesheetPruning
