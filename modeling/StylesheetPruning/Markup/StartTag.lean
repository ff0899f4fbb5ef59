import StylesheetPruning.Markup.Reference

/-!
# Start tags of a page

A page is read as a sequence of tags, comments and text. Only its start tags
matter: their names and their attributes.

**Preparation.** A byte order mark in front is dropped, and every line break
becomes a line feed.

**Machine.** The page is read one character at a time, without looking ahead.
Comments end at their first closing mark, so they do not nest; declarations,
processing instructions and other bogus comments end at the first `>`. Text
has no special regions: a tag inside a script is a tag. A tag that the page
does not close is dropped.

**Names.** Names of tags and attributes are lowered, and a NUL stands for the
replacement character. Of several attributes with one name the first counts.

**Values.** References in an attribute value are decoded when its tag is
complete.
-/

namespace StylesheetPruning

/-- An attribute of a start tag. -/
structure Attribute where
  name : Text
  value : Text
deriving Repr, DecidableEq

/-- A start tag. -/
structure StartTag where
  name : Text
  /-- The attributes as written, in order. -/
  attributes : List Attribute
deriving Repr, DecidableEq

namespace StartTag

/-- The value of an attribute. Of several with one name the first counts. -/
def value? (tag : StartTag) (name : Text) : Option Text :=
  (tag.attributes.find? (fun a => a.name == name)).map Attribute.value

section Characters

/-- Whether a character separates the parts of a tag. -/
def isTagSpace (c : Char) : Bool :=
  c = '\t' || c = '\n' || c = '\x0c' || c = ' '

/-- A character as it is kept in a value. -/
def valueChar (c : Char) : Char :=
  if c = '\x00' then replacementChar else c

/-- A character as it is kept in a name. -/
def nameChar (c : Char) : Char :=
  (valueChar c).toLower

end Characters

section Machine

/-- A tag that is being read. Its texts and its list are in reverse. -/
structure Draft where
  /-- Whether it is an end tag. -/
  closing : Bool
  name : Text
  attributes : List Attribute
deriving Repr, DecidableEq

namespace Draft

/-- A tag of which one character of the name was read. -/
def start (closing : Bool) (c : Char) : Draft :=
  { closing := closing, name := [nameChar c], attributes := [] }

/-- Read one more character of the name of the tag. -/
def pushName (draft : Draft) (c : Char) : Draft :=
  { draft with name := nameChar c :: draft.name }

/-- Begin an attribute. -/
def beginAttribute (draft : Draft) (c : Char) : Draft :=
  { draft with attributes := ⟨[nameChar c], []⟩ :: draft.attributes }

/-- Read one more character of the name of the last attribute. -/
def pushAttribute (draft : Draft) (c : Char) : Draft :=
  { draft with
    attributes := draft.attributes.modifyHead
      (fun a => { a with name := nameChar c :: a.name }) }

/-- Read one more character of the value of the last attribute. -/
def pushValue (draft : Draft) (c : Char) : Draft :=
  { draft with
    attributes := draft.attributes.modifyHead
      (fun a => { a with value := valueChar c :: a.value }) }

/-- The finished tag, unless it is an end tag. -/
def finish? (draft : Draft) : Option StartTag :=
  if draft.closing then none
  else
    some
      { name := draft.name.reverse
        attributes := draft.attributes.reverse.map
          (fun a => ⟨a.name.reverse, Reference.decode a.value.reverse⟩) }

end Draft

/-- Where the reading of a tag stands between two characters. -/
inductive Stage where
  /-- In the name of the tag. -/
  | name
  /-- Where an attribute may begin. -/
  | beforeAttribute
  /-- In the name of an attribute. -/
  | attributeName
  /-- Behind the name of an attribute. -/
  | afterAttributeName
  /-- Behind the equals sign of an attribute. -/
  | beforeValue
  /-- In a value that began with this quote. -/
  | quotedValue (quote : Char)
  /-- In a value without quotes. -/
  | bareValue
  /-- Behind the closing quote of a value. -/
  | afterValue
  /-- Behind a slash. -/
  | afterSlash
deriving Repr, DecidableEq

/-- Where the reading of a page stands between two characters. -/
inductive Reading where
  /-- In text. -/
  | text
  /-- Behind `<`. -/
  | tagOpen
  /-- Behind `</`. -/
  | endTagOpen
  /-- Behind `<!`. -/
  | declaration
  /-- Behind `<!-`. -/
  | declarationDash
  /-- In what ends at the first `>`. -/
  | bogusComment
  /-- Behind `<!--`. -/
  | commentStart
  /-- Behind `<!---`. -/
  | commentStartDash
  /-- In a comment. -/
  | comment
  /-- Behind one dash in a comment. -/
  | commentDash
  /-- Behind two or more dashes in a comment. -/
  | commentEnd
  /-- Behind `--!` in a comment. -/
  | commentBang
  /-- In a tag. -/
  | tag (stage : Stage) (draft : Draft)
deriving Repr, DecidableEq

namespace Reading

/-- Where an attribute may begin, by the character that comes there. -/
def atAttribute (draft : Draft) (c : Char) : Reading × Option StartTag :=
  if isTagSpace c then (tag .beforeAttribute draft, none)
  else if c = '/' then (tag .afterSlash draft, none)
  else if c = '>' then (text, draft.finish?)
  else (tag .attributeName (draft.beginAttribute c), none)

/-- Read one character in a tag. -/
def stepTag (draft : Draft) (c : Char) : Stage → Reading × Option StartTag
  | .name =>
      if isTagSpace c then (tag .beforeAttribute draft, none)
      else if c = '/' then (tag .afterSlash draft, none)
      else if c = '>' then (text, draft.finish?)
      else (tag .name (draft.pushName c), none)
  | .beforeAttribute => atAttribute draft c
  | .attributeName =>
      if isTagSpace c then (tag .afterAttributeName draft, none)
      else if c = '/' then (tag .afterSlash draft, none)
      else if c = '=' then (tag .beforeValue draft, none)
      else if c = '>' then (text, draft.finish?)
      else (tag .attributeName (draft.pushAttribute c), none)
  | .afterAttributeName =>
      if isTagSpace c then (tag .afterAttributeName draft, none)
      else if c = '/' then (tag .afterSlash draft, none)
      else if c = '=' then (tag .beforeValue draft, none)
      else if c = '>' then (text, draft.finish?)
      else (tag .attributeName (draft.beginAttribute c), none)
  | .beforeValue =>
      if isTagSpace c then (tag .beforeValue draft, none)
      else if c = '"' || c = '\'' then (tag (.quotedValue c) draft, none)
      else if c = '>' then (text, draft.finish?)
      else (tag .bareValue (draft.pushValue c), none)
  | .quotedValue quote =>
      if c = quote then (tag .afterValue draft, none)
      else (tag (.quotedValue quote) (draft.pushValue c), none)
  | .bareValue =>
      if isTagSpace c then (tag .beforeAttribute draft, none)
      else if c = '>' then (text, draft.finish?)
      else (tag .bareValue (draft.pushValue c), none)
  | .afterValue => atAttribute draft c
  | .afterSlash => atAttribute draft c

/-- Read one character: the new state, and a start tag that it completes. -/
def step : Reading → Char → Reading × Option StartTag
  | text, c => (if c = '<' then tagOpen else text, none)
  | tagOpen, c =>
      if c = '!' then (declaration, none)
      else if c = '/' then (endTagOpen, none)
      else if c = '?' then (bogusComment, none)
      else if c.isAlpha then (tag .name (Draft.start false c), none)
      else if c = '<' then (tagOpen, none)
      else (text, none)
  | endTagOpen, c =>
      if c.isAlpha then (tag .name (Draft.start true c), none)
      else if c = '>' then (text, none)
      else (bogusComment, none)
  | declaration, c =>
      if c = '-' then (declarationDash, none)
      else if c = '>' then (text, none)
      else (bogusComment, none)
  | declarationDash, c =>
      if c = '-' then (commentStart, none)
      else if c = '>' then (text, none)
      else (bogusComment, none)
  | bogusComment, c => (if c = '>' then text else bogusComment, none)
  | commentStart, c =>
      if c = '-' then (commentStartDash, none)
      else if c = '>' then (text, none)
      else (comment, none)
  | commentStartDash, c =>
      if c = '-' then (commentEnd, none)
      else if c = '>' then (text, none)
      else (comment, none)
  | comment, c => (if c = '-' then commentDash else comment, none)
  | commentDash, c => (if c = '-' then commentEnd else comment, none)
  | commentEnd, c =>
      if c = '>' then (text, none)
      else if c = '!' then (commentBang, none)
      else if c = '-' then (commentEnd, none)
      else (comment, none)
  | commentBang, c =>
      if c = '-' then (commentDash, none)
      else if c = '>' then (text, none)
      else (comment, none)
  | tag stage draft, c => stepTag draft c stage

/-- Read the rest of a page, with the start tags so far in reverse. -/
def run : Reading → List StartTag → Text → Reading × List StartTag
  | state, tags, [] => (state, tags.reverse)
  | state, tags, c :: rest =>
      match state.step c with
      | (state', some complete) => run state' (complete :: tags) rest
      | (state', none) => run state' tags rest

/-- Tags that were read before come before those that are read. -/
theorem run_eq (state : Reading) (tags : List StartTag) (page : Text) :
    run state tags page =
      ((run state [] page).1, tags.reverse ++ (run state [] page).2) := by
  induction page generalizing state tags with
  | nil => simp [run]
  | cons c rest ih =>
      simp only [run]
      cases state.step c with
      | mk state' emitted =>
          cases emitted with
          | none =>
              simp only []
              rw [ih]
          | some complete =>
              simp only []
              rw [ih, ih state' [complete]]
              simp

/-- A page may be read in two parts. -/
theorem run_append (state : Reading) (page page' : Text) :
    run state [] (page ++ page') =
      ((run (run state [] page).1 [] page').1,
        (run state [] page).2 ++ (run (run state [] page).1 [] page').2) := by
  induction page generalizing state with
  | nil => simp [run]
  | cons c rest ih =>
      simp only [List.cons_append, run]
      cases state.step c with
      | mk state' emitted =>
          cases emitted with
          | none =>
              simp only []
              rw [ih]
          | some complete =>
              simp only []
              rw [run_eq state' [complete], run_eq state' [complete] rest, ih]
              simp

end Reading

end Machine

section Pages

/-- Unify the line breaks of the rest, behind a CR or not. -/
def unifyLineBreaks.go : Bool → Text → Text → Text
  | _, [], read => read.reverse
  | afterReturn, c :: rest, read =>
      if c = '\r' then go true rest ('\n' :: read)
      else if c = '\n' && afterReturn then go false rest read
      else go false rest (c :: read)

/-- Write every CR, and every CR with an LF behind it, as one LF. -/
def unifyLineBreaks (page : Text) : Text :=
  unifyLineBreaks.go false page []

/-- A page without a byte order mark in front. -/
def dropByteOrderMark : Text → Text
  | [] => []
  | c :: rest => if c = '\uFEFF' then rest else c :: rest

/-- The start tags of a page, in order. -/
def ofPage (page : Text) : List StartTag :=
  (Reading.text.run [] (unifyLineBreaks (dropByteOrderMark page))).2

end Pages

end StartTag

end StylesheetPruning
