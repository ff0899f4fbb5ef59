import StylesheetPruning.Selector.Kind
import StylesheetPruning.Selector.TopLevel

/-!
# Selector lists

A selector list is cut at its commas into selectors, a selector at its
combinators into compounds, and a compound at the marks of its members into
simple selectors. A simple selector may end in a pseudo suffix.

**Two texts.** Structure is read from the masked text. What a part says is
read from the uncommented text at the same offsets; an offset that is no
character boundary there gives the empty text.

**Blank lists.** A list that is nothing but whitespace has no selectors. A
compound member that is nothing but a pseudo suffix asks for nothing and is
left out.
-/

namespace StylesheetPruning

/-- One condition on a single element. -/
structure SimpleSelector where
  /-- Position among the parts of the selector. -/
  position : Nat
  /-- The text, pseudo suffix included. -/
  source : Text
  /--
  What is compared with the page: the name without its mark and without
  escapes for classes and identifiers, the text without the suffix otherwise.
  -/
  value : Text
  /-- The pseudo suffix, which does not matter to a page. -/
  suffix : Option Text
  kind : Kind
deriving Repr, DecidableEq

/-- One member of a selector list. -/
structure Selector where
  /-- Where the member stands in the stylesheet. -/
  span : Span
  /-- The text between the commas, whitespace included. -/
  source : Text
  /-- The text without the whitespace at its two ends. -/
  trimmed : Text
  /-- The conditions of all compounds, in source order. -/
  parts : List SimpleSelector
deriving Repr, DecidableEq

namespace SimpleSelector

/-- Whether a character can separate two compounds. -/
def isCombinator (c : Char) : Bool :=
  isSpace c || c = '>' || c = '~' || c = '+' || c = '|'

/-- Whether a character begins a class, an identifier or an attribute. -/
def isMark (c : Char) : Bool :=
  c = '.' || c = '#' || c = '['

/-- The text behind a mark of one byte. -/
def behindMark (text : Text) : Text :=
  slice text ⟨1, byteLength text⟩

/-- Read one member of a compound, whose position is given. -/
def ofPiece? (uncommented : Text) (piece : Piece) (position : Nat) :
    Option SimpleSelector :=
  let piece := piece.trim
  let (body, suffix) := breakExposed (fun c => c = ':') piece.text
  if body.isEmpty then
    none
  else
    let bodySpan : Span := ⟨piece.start, piece.start + byteLength body⟩
    let kind := Kind.ofText body
    let text := slice uncommented bodySpan
    some
      { position := position
        source := slice uncommented piece.span
        value :=
          match kind with
          | .className | .identifier => resolveEscapes (behindMark text)
          | _ => text
        suffix :=
          if suffix.isEmpty then none
          else some (slice uncommented ⟨bodySpan.stop, piece.span.stop⟩)
        kind := kind }

/-- The members of the compounds of a selector. -/
def piecesOf (selector : Piece) : List Piece :=
  (selector.split isCombinator).flatMap (fun compound => compound.cut isMark)

/-- Read pieces in order; positions count those that ask for something. -/
def ofPieces (uncommented : Text) : Nat → List Piece → List SimpleSelector
  | _, [] => []
  | position, piece :: rest =>
      match ofPiece? uncommented piece position with
      | some part => part :: ofPieces uncommented (position + 1) rest
      | none => ofPieces uncommented position rest

end SimpleSelector

namespace Selector

/-- Read one member of a list that starts at `offset` in the stylesheet. -/
def ofPiece (uncommented : Text) (offset : Nat) (piece : Piece) : Selector :=
  let inner := piece.trim
  { span := ⟨offset + piece.span.start, offset + piece.span.stop⟩
    source := slice uncommented piece.span
    trimmed := slice uncommented inner.span
    parts :=
      SimpleSelector.ofPieces uncommented 0 (SimpleSelector.piecesOf inner) }

/-- The members of a list, between its commas. -/
def piecesOf (masked : Text) : List Piece :=
  Piece.split (fun c => c = ',') ⟨0, masked⟩

/--
The selectors of a list that starts at `offset` in the stylesheet, from its
masked and its uncommented text.
-/
def readList (masked uncommented : Text) (offset : Nat) : List Selector :=
  if masked.all isSpace then
    []
  else
    (piecesOf masked).map (ofPiece uncommented offset)

end Selector

end StylesheetPruning
