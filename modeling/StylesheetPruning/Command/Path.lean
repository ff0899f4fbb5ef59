import StylesheetPruning.Text.Split

/-!
# Paths

A path is a text. Its steps are the parts between slashes that are not empty.
The step `.` stays where it is, and `..` goes up.

**Names.** The name of a path is its last step that is not `.`, unless that
is `..`. The stem of a name is what stands in front of its last dot, or the
whole name when nothing stands there.

**Destinations.** The result for a page goes into the output directory, under
the stem of the page. A page without a name has the stem `page`.
-/

namespace StylesheetPruning

namespace Path

/-- The step that stays. -/
def here : Text :=
  ['.']

/-- The step that goes up. -/
def up : Text :=
  ['.', '.']

/-- The parts between slashes that are not empty. -/
def steps (path : Text) : List Text :=
  (splitWhere (fun c => c = '/') path).filter (fun step => !step.isEmpty)

/-- Whether a path starts at the root. -/
def isAbsolute (path : Text) : Bool :=
  path.head? = some '/'

/-- Whether a path can only be that of a directory, because of a slash. -/
def endsInSlash (path : Text) : Bool :=
  path.getLast? = some '/'

/-- The name that a path ends in, if it ends in one. -/
def name? (path : Text) : Option Text :=
  ((steps path).filter (fun step => step ≠ here)).getLast?.filter
    (fun step => step ≠ up)

/-- A name up to its last dot, or all of it when nothing stands in front. -/
def stemOfName (name : Text) : Text :=
  let behind := name.reverse.takeWhile (fun c => c != '.')
  let front := (name.reverse.drop (behind.length + 1)).reverse
  if front.isEmpty then name else front

/-- The stem of the name of a page. -/
def pageStem (page : Text) : Text :=
  match name? page with
  | some name => stemOfName name
  | none => "page".toList

/-- A path one step further down. -/
def join (directory name : Text) : Text :=
  if endsInSlash directory then directory ++ name
  else directory ++ '/' :: name

/-- Where the result for a page goes. -/
def destination (directory page : Text) : Text :=
  join directory (pageStem page ++ ".css".toList)

/-- A path that is made of some steps. -/
def ofSteps (absolute : Bool) (steps : List Text) : Text :=
  let text := (steps.intersperse ['/']).flatten
  if absolute then '/' :: text else text

/-- A path and the paths above it, the longest first. -/
def withAncestors (path : Text) : List Text :=
  let named := (steps path).filter (fun step => step ≠ here)
  let counts := ((List.range named.length).filter (fun n => n ≠ 0)).reverse
  path :: counts.map (fun n => ofSteps (isAbsolute path) (named.take n))

end Path

end StylesheetPruning
