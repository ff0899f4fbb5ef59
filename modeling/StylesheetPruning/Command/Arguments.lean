import StylesheetPruning.Text.Basic

/-!
# Arguments of the command

**Positions.** The first argument that is no option names the stylesheet, and
the others name pages; there is at least one page. Options may stand anywhere.
A double dash ends them, and a single dash is no option.

**Values.** A value stands in its option, behind an equals sign or, for a
short option, right behind the letter; or it is the next argument, which must
not look like an option then. Short options without values can be joined.

**Refusals.** Unknown and repeated options, missing or superfluous values, bad
numbers and empty paths are refused.
-/

namespace StylesheetPruning

/-- What the command was asked to do. -/
structure Arguments where
  /-- Path of the stylesheet. -/
  stylesheet : Text
  /-- Paths of the pages. -/
  pages : List Text
  /-- Path of the directory for the results, or nothing to print them. -/
  directory : Option Text
  /-- Refuse inputs that are longer than this number of bytes. -/
  limit : Option Nat
  /-- Whether to print a report for every page. -/
  report : Bool
deriving Repr, DecidableEq

namespace Arguments

/-- The options that take a value. -/
inductive Setting where
  | directory
  | limit
deriving Repr, DecidableEq

/-- The arguments read so far; positions are in reverse. -/
structure Given where
  positions : List Text
  directory : Option Text
  limit : Option Nat
  report : Bool
deriving Repr, DecidableEq

namespace Given

/-- No arguments. -/
def nothing : Given :=
  { positions := [], directory := none, limit := none, report := false }

/-- Largest number of bytes that can be given. -/
def maxCount : Nat :=
  UInt64.size - 1

/-- A number of bytes: decimal digits, with a plus sign in front or not. -/
def count? (text : Text) : Option Nat :=
  let digits :=
    match text with
    | '+' :: rest => rest
    | _ => text
  if digits.isEmpty || !digits.all Char.isDigit then none
  else
    let n := ofDigits 10 digits
    if n ≤ maxCount then some n else none

/-- Add a position, which must not be empty. -/
def addPosition (given : Given) (text : Text) : Option Given :=
  if text.isEmpty then none
  else some { given with positions := text :: given.positions }

/-- Set a value, which must not be set yet. -/
def setValue (given : Given) (value : Text) : Setting → Option Given
  | .directory =>
      if given.directory.isSome || value.isEmpty then none
      else some { given with directory := some value }
  | .limit =>
      if given.limit.isSome then none
      else (count? value).map (fun n => { given with limit := some n })

/-- Set the flag, which must not be set yet. -/
def setReport (given : Given) : Option Given :=
  if given.report then none else some { given with report := true }

/-- Read joined short options; the last may still need its value. -/
def readShort : Given → Text → Option (Given × Option Setting)
  | given, [] => some (given, none)
  | given, 'r' :: rest => do
      let given ← given.setReport
      readShort given rest
  | given, 'o' :: rest =>
      match rest with
      | [] => some (given, some .directory)
      | '=' :: value => (given.setValue value .directory).map (·, none)
      | value => (given.setValue value .directory).map (·, none)
  | _, _ => none

/-- Read a long option, which may still need its value. -/
def readLong (given : Given) (option : Text) :
    Option (Given × Option Setting) :=
  let name := String.ofList (option.takeWhile (fun c => c != '='))
  let value? := (option.dropWhile (fun c => c != '=')).tail?
  match name, value? with
  | "report", none => given.setReport.map (·, none)
  | "output-dir", none => some (given, some .directory)
  | "output-dir", some value => (given.setValue value .directory).map (·, none)
  | "max-input-bytes", none => some (given, some .limit)
  | "max-input-bytes", some value =>
      (given.setValue value .limit).map (·, none)
  | _, _ => none

/-- Read an argument that is neither a value nor a double dash. -/
def readArgument (given : Given) (argument : Text) :
    Option (Given × Option Setting) :=
  match argument with
  | '-' :: '-' :: option => given.readLong option
  | '-' :: c :: rest => given.readShort (c :: rest)
  | text => (given.addPosition text).map (·, none)

/-- Read the value of an option from an argument of its own. -/
def readValue (given : Given) (setting : Setting) (argument : Text) :
    Option Given :=
  match argument with
  | '-' :: _ :: _ => none
  | value => given.setValue value setting

/-- Read arguments all of which are positions. -/
def readPositions : Given → List Text → Option Given
  | given, [] => some given
  | given, argument :: rest => do
      let given ← given.addPosition argument
      readPositions given rest

/-- Read arguments, the first of which may have to be a value. -/
def read : Given → Option Setting → List Text → Option Given
  | given, none, [] => some given
  | _, some _, [] => none
  | given, some setting, argument :: rest => do
      let given ← given.readValue setting argument
      read given none rest
  | given, none, argument :: rest =>
      if argument = ['-', '-'] then readPositions given rest
      else do
        let (given, setting?) ← given.readArgument argument
        read given setting? rest

/-- The whole of the arguments, with a stylesheet and at least one page. -/
def finish? (given : Given) : Option Arguments :=
  match given.positions.reverse with
  | stylesheet :: page :: pages =>
      some
        { stylesheet := stylesheet
          pages := page :: pages
          directory := given.directory
          limit := given.limit
          report := given.report }
  | _ => none

end Given

/-- What the arguments ask for, unless they are refused. -/
def ofList? (arguments : List Text) : Option Arguments := do
  let given ← Given.nothing.read none arguments
  given.finish?

end Arguments

end StylesheetPruning
