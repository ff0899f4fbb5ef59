import StylesheetPruning.Text.Basic

/-!
# Kinds of simple selectors

The kind of a simple selector says what part of a page it asks for. It is read
off the text without its pseudo suffix.

**Precedence.** A star anywhere makes the selector universal. At-rule names
and the keyframe markers `from` and `to` cannot be checked against a page,
although the markers look like element names.
-/

namespace StylesheetPruning

/-- What a simple selector asks for. -/
inductive Kind where
  /-- Any element. -/
  | universal
  /-- Elements of a name. -/
  | element
  /-- Elements of a class. -/
  | className
  /-- The element with an identifier. -/
  | identifier
  /-- Elements with an attribute. -/
  | attributeName
  /-- Nothing that a page could decide. -/
  | unknown
deriving Repr, DecidableEq

namespace Kind

/-- The word for a kind. -/
def name : Kind → String
  | universal => "universal"
  | element => "type"
  | className => "class"
  | identifier => "id"
  | attributeName => "attribute"
  | unknown => "unknown"

/-- Whether a word is one of the two keyframe markers, in any case. -/
def isKeyframeMarker (word : Text) : Bool :=
  lowered word = "from".toList || lowered word = "to".toList

/-- The kind of a simple selector, by its text without a pseudo suffix. -/
def ofText (text : Text) : Kind :=
  if text.contains '*' then universal
  else match text with
    | '.' :: _ => className
    | '#' :: _ => identifier
    | '[' :: _ => attributeName
    | '@' :: _ => unknown
    | c :: _ =>
        if isKeyframeMarker text then unknown
        else if c.isAlpha then element
        else unknown
    | [] => unknown

end Kind

end StylesheetPruning
